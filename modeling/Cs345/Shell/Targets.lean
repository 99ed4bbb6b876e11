import Cs345.Shell.Operators

namespace Shell

section LastIndex
variable {α : Type} {p q : α → Bool} {l : List α} {a : α} {i : ℕ}

def lastIdx (p : α → Bool) (l : List α) : Option ℕ :=
  l.zipIdx.foldl (fun r x => if p x.1 then some x.2 else r) none

theorem lastIdx_concat (p : α → Bool) (l : List α) (a : α) :
    lastIdx p (l ++ [a]) = if p a then some l.length else lastIdx p l := by
  simp [lastIdx, List.zipIdx_append]

theorem lastIdx_some (h : lastIdx p l = some i) :
    (∃ a, l[i]? = some a ∧ p a = true) ∧ ∀ j a, i < j → l[j]? = some a → p a = false := by
  induction l using List.reverseRecOn with
  | nil => cases h
  | append_singleton l b ih =>
    rw [lastIdx_concat] at h
    split_ifs at h with hb
    · cases h
      refine ⟨⟨b, by simp, hb⟩, fun j a hj ha => ?_⟩
      rw [List.getElem?_eq_none (by simp; omega)] at ha
      cases ha
    · obtain ⟨⟨a, ha, hp⟩, hlast⟩ := ih h
      have hi : i < l.length := (List.getElem?_eq_some_iff.mp ha).1
      refine ⟨⟨a, by rw [List.getElem?_append_left hi, ha], hp⟩, fun j c hj hc => ?_⟩
      rcases Nat.lt_trichotomy j l.length with hlt | rfl | hgt
      · exact hlast j c hj (by rwa [List.getElem?_append_left hlt] at hc)
      · obtain rfl : b = c := by simpa using hc
        simpa using hb
      · rw [List.getElem?_eq_none (by simp; omega)] at hc
        cases hc

theorem lastIdx_eq (ha : l[i]? = some a) (hp : p a = true)
    (hlast : ∀ j b, i < j → l[j]? = some b → p b = false) : lastIdx p l = some i := by
  induction l using List.reverseRecOn with
  | nil => cases ha
  | append_singleton l b ih =>
    rw [lastIdx_concat]
    rcases Nat.lt_trichotomy i l.length with hlt | rfl | hgt
    · have hb : p b = false := hlast l.length b hlt (by simp)
      rw [if_neg (by simp [hb])]
      rw [List.getElem?_append_left hlt] at ha
      refine ih ha fun j c hj hc => hlast j c hj ?_
      rw [List.getElem?_append_left (List.getElem?_eq_some_iff.mp hc).1, hc]
    · obtain rfl : b = a := by simpa using ha
      rw [if_pos hp]
    · rw [List.getElem?_eq_none (by simp; omega)] at ha
      cases ha

theorem lastIdx_of_wider (hpq : ∀ a, p a = true → q a = true) (h : lastIdx q l = some i)
    (ha : l[i]? = some a) (hp : p a = true) : lastIdx p l = some i := by
  refine lastIdx_eq ha hp fun j b hj hb => ?_
  by_contra hne
  have hq := (lastIdx_some h).2 j b hj hb
  rw [hpq b (by simpa using hne)] at hq
  cases hq

end LastIndex

section Names

def fileAfter (op : Word) (ws : List Word) : Option Word :=
  (lastIdx (· = op) ws).bind fun i => ws[i + 1]?

def outputOp (w : Word) : Bool := w = greater || w = append

def outputTarget (ws : List Word) : Option (Word × Word) :=
  (lastIdx outputOp ws).bind fun i => ws[i]?.bind fun op => ws[i + 1]?.map fun f => (op, f)

theorem outputTarget_some {ws : List Word} {op f : Word} (h : outputTarget ws = some (op, f)) :
    (op = greater ∨ op = append) ∧ fileAfter op ws = some f := by
  simp only [outputTarget, Option.bind_eq_some_iff, Option.map_eq_some_iff, Prod.mk.injEq] at h
  obtain ⟨i, hi, w, hw, x, hx, rfl, rfl⟩ := h
  obtain ⟨⟨b, hb, hop⟩, -⟩ := lastIdx_some hi
  cases hw.symm.trans hb
  have hor : w = greater ∨ w = append := by simpa [outputOp] using hop
  have hlast : lastIdx (· = w) ws = some i :=
    lastIdx_of_wider (fun a ha => by rwa [of_decide_eq_true ha]) hi hw (by simp)
  exact ⟨hor, by simp [fileAfter, hlast, hx]⟩

end Names

section Searched
variable {v : ArgVector}

theorem searchForRedirection_field (f : Redirection → Bool × ℕ) (op : Word)
    (hnote : ∀ r w i, f (r.note w i) = if w = op then (true, i) else f r)
    (hunset : f .unset = (false, 0)) (args : Args) :
    f (searchForRedirection args .unset) =
      ((lastIdx (· = op) (words args)).isSome, (lastIdx (· = op) (words args)).getD 0) := by
  rw [searchForRedirection]
  generalize words args = ws
  induction ws using List.reverseRecOn with
  | nil => exact hunset
  | append_singleton ws w ih =>
    rw [lastIdx_concat, List.zipIdx_append, List.foldl_append]
    simp only [List.zipIdx_cons, List.zipIdx_nil, List.foldl_cons, List.foldl_nil, hnote, Nat.zero_add]
    by_cases hw : w = op
    · simp [hw]
    · simp [hw, ih]

theorem input_eq : (v.redirection.input, v.redirection.inputRedir) =
    ((lastIdx (· = less) v.words).isSome, (lastIdx (· = less) v.words).getD 0) :=
  searchForRedirection_field (fun r => (r.input, r.inputRedir)) less
    (fun r w i => by simp only [Redirection.note]; split_ifs <;> rfl) rfl v.args

theorem output_eq : (v.redirection.output, v.redirection.outputRedir) =
    ((lastIdx (· = greater) v.words).isSome, (lastIdx (· = greater) v.words).getD 0) :=
  searchForRedirection_field (fun r => (r.output, r.outputRedir)) greater
    (fun r w i => by simp only [Redirection.note]; split_ifs <;> simp_all) rfl v.args

theorem append_eq : (v.redirection.appendFlag, v.redirection.appendRedir) =
    ((lastIdx (· = append) v.words).isSome, (lastIdx (· = append) v.words).getD 0) :=
  searchForRedirection_field (fun r => (r.appendFlag, r.appendRedir)) append
    (fun r w i => by simp only [Redirection.note]; split_ifs <;> simp_all) rfl v.args

theorem getElem_words {i : ℕ} (hi : i < v.numArgs) : v.words[i]? = v.args i := by
  have hdrop : wordsAt v.args (0 + i) = v.words.drop i := ArgVector.wordsAt_add (by omega)
  obtain ⟨w, hw⟩ := v.some_of_lt hi
  have hlt := v.lt_size
  rw [Nat.zero_add, wordsAt_some (by omega) hw] at hdrop
  rw [hw, ← Nat.add_zero i, ← List.getElem?_drop, ← hdrop]
  rfl

theorem FileNamed.next {ws : List Word} (h : FileNamed ws) {i : ℕ} {op : Word}
    (hop : ws[i]? = some op) (hredir : isRedir op = true) : ∃ f, ws[i + 1]? = some f := by
  induction ws generalizing i with
  | nil => cases hop
  | cons w ws ih =>
    cases i with
    | zero =>
      cases hop
      obtain ⟨f, hf, -⟩ := h.1 hredir
      exact ⟨f, by simpa [List.head?_eq_getElem?] using hf⟩
    | succ i => exact ih h.2 hop

end Searched

section Effect

namespace FileSystem
variable (fs : FileSystem)

def canRead (f : Word) : Bool := (fs.file f).any (·.readable)

def writable (f : Word) : Bool := (fs.file f).any (·.writable)

def canCreate (f : Word) : Bool :=
  match fs.file f with
  | some file => file.writable
  | none => fs.creatable f

def emptied (f : Word) : FileSystem :=
  { fs with file := Function.update fs.file f (some
    (((fs.file f).map fun file => { file with content := [] }).getD ⟨[], true, true⟩)) }

theorem open_read (f : Word) : openFile fs .read (some f) =
    if fs.canRead f then some (fs, .file f .read) else none := by
  cases hf : fs.file f with
  | none => simp [openFile, canRead, hf]
  | some file => cases hr : file.readable <;> simp [openFile, canRead, hf, hr]

theorem open_write (f : Word) : openFile fs .write (some f) =
    if fs.canCreate f then some (fs.emptied f, .file f .write) else none := by
  cases hf : fs.file f with
  | none => cases hc : fs.creatable f <;> simp [openFile, canCreate, emptied, hf, hc]
  | some file => cases hw : file.writable <;> simp [openFile, canCreate, emptied, hf, hw]

theorem open_append (f : Word) : openFile fs .append (some f) =
    if fs.writable f then some (fs, .file f .append) else none := by
  cases hf : fs.file f with
  | none => simp [openFile, writable, hf]
  | some file => cases hw : file.writable <;> simp [openFile, writable, hf, hw]

theorem emptied_content (f : Word) :
    ((fs.emptied f).file f).any (fun file => file.content.isEmpty) = true := by
  cases hf : fs.file f <;> simp [emptied, hf]

theorem canCreate_of_writable {f : Word} (h : fs.writable f = true) : fs.canCreate f = true := by
  cases hf : fs.file f with
  | none => simp [writable, hf] at h
  | some file => simpa [writable, canCreate, hf] using h

theorem writable_emptied {f g : Word} (h : fs.canCreate f = true) :
    (fs.emptied f).writable g = true ↔ g = f ∨ fs.writable g = true := by
  by_cases hg : g = f
  · subst hg
    cases hf : fs.file g with
    | none => simp [writable, emptied, hf]
    | some file =>
      have hw : file.writable = true := by simpa [canCreate, hf] using h
      simp [writable, emptied, hf, hw]
  · simp [writable, emptied, hg]

def afterCreate (ws : List Word) : FileSystem :=
  match fileAfter greater ws with
  | some f => if fs.canCreate f then fs.emptied f else fs
  | none => fs

theorem writable_afterCreate {ws : List Word} {g : Word} :
    (fs.afterCreate ws).writable g = true ↔
      fs.writable g = true ∨ fileAfter greater ws = some g ∧ fs.canCreate g = true := by
  cases hf : fileAfter greater ws with
  | none => simp [afterCreate, hf]
  | some f =>
    by_cases hc : fs.canCreate f = true
    · simp only [afterCreate, hf, if_pos hc, fs.writable_emptied hc, Option.some.injEq]
      constructor
      · rintro (rfl | hw)
        · exact .inr ⟨rfl, hc⟩
        · exact .inl hw
      · rintro (hw | ⟨rfl, -⟩)
        · exact .inr hw
        · exact .inl rfl
    · simp only [afterCreate, hf, if_neg hc, Option.some.injEq]
      constructor
      · exact .inl
      · rintro (hw | ⟨rfl, hc'⟩)
        · exact hw
        · exact absurd hc' hc

end FileSystem

def stdinAfter (fs : FileSystem) (ws : List Word) : FileEnd :=
  match fileAfter less ws with
  | some f => if fs.canRead f then .file f .read else .inherited 0
  | none => .inherited 0

def createdStdout (fs : FileSystem) (ws : List Word) : FileEnd :=
  match fileAfter greater ws with
  | some f => if fs.canCreate f then .file f .write else .inherited 1
  | none => .inherited 1

def appendedStdout (fs : FileSystem) (e : FileEnd) (ws : List Word) : FileEnd :=
  match fileAfter append ws with
  | some g => if fs.writable g then .file g .append else e
  | none => e

def stdoutAfter (fs : FileSystem) (ws : List Word) : FileEnd :=
  appendedStdout (fs.afterCreate ws) (createdStdout fs ws) ws

section Blocks
variable {v : ArgVector} {s s' : FileSystem × FdTable} {fd target : ℕ} {mode : OpenMode}
  {name op : Word}

theorem redirect_failed (ho : openFile s.1 mode (some name) = none)
    (h : redirect fd mode (some name) target s = some s') : s' = s := by
  simp only [redirect, ho] at h
  exact (Option.some.inj h).symm

theorem redirect_opened {fs : FileSystem} {e : FileEnd}
    (ho : openFile s.1 mode (some name) = some (fs, e)) (htarget : s.2 target ≠ none)
    (h : redirect fd mode (some name) target s = some s') :
    s'.1 = fs ∧ s'.2 target = some e ∧ ∀ x, x ≠ target → s.2 x ≠ none → s'.2 x = s.2 x := by
  simp only [redirect, ho] at h
  split_ifs at h with hfree
  cases h
  have hne (x : ℕ) (hx : s.2 x ≠ none) : x ≠ fd := by
    rintro rfl
    exact hx (by simpa using hfree)
  refine ⟨rfl, ?_, fun x hx hx' => ?_⟩
  · exact (close_of_ne (hne _ htarget)).trans (dup2_at (Function.update_self _ _ _))
  · exact (close_of_ne (hne _ hx')).trans
      ((dup2_of_ne hx).trans (Function.update_of_ne (hne _ hx') _ _))

theorem redirectAt_cases (hnamed : FileNamed v.words) (hop : isRedir op = true)
    (h : redirectAt (lastIdx (· = op) v.words).isSome fd mode
      ((lastIdx (· = op) v.words).getD 0) target v.args s = some s') :
    fileAfter op v.words = none ∧ s' = s ∨
      ∃ f, fileAfter op v.words = some f ∧ redirect fd mode (some f) target s = some s' := by
  cases hi : lastIdx (· = op) v.words with
  | none =>
    simp only [hi, redirectAt] at h
    exact .inl ⟨by simp [fileAfter, hi], (Option.some.inj h).symm⟩
  | some i =>
    obtain ⟨⟨w, hw, hwop⟩, -⟩ := lastIdx_some hi
    obtain rfl : w = op := by simpa using hwop
    obtain ⟨f, hf⟩ := hnamed.next hw hop
    have hlt : i + 1 < v.numArgs := v.length_words ▸ (List.getElem?_eq_some_iff.mp hf).1
    have hread : readArg v.args (i + 1) = some (some f) := by
      have := v.lt_size
      rw [readArg, if_pos (by omega), ← getElem_words hlt, hf]
    simp only [hi, redirectAt, Option.isSome_some, if_true, Option.getD_some, hread,
      Option.bind_some] at h
    exact .inr ⟨f, by simp [fileAfter, hi, hf], h⟩

theorem block_effect {ok : Word → Bool} {after : Word → FileSystem} {opened : Word → FileEnd}
    {e : FileEnd} (hnamed : FileNamed v.words) (hop : isRedir op = true)
    (hopen : ∀ f, openFile s.1 mode (some f) = if ok f then some (after f, opened f) else none)
    (htarget : s.2 target = some e)
    (h : redirectAt (lastIdx (· = op) v.words).isSome fd mode
      ((lastIdx (· = op) v.words).getD 0) target v.args s = some s') :
    s'.1 = (match fileAfter op v.words with
      | some f => if ok f then after f else s.1
      | none => s.1) ∧
    s'.2 target = some (match fileAfter op v.words with
      | some f => if ok f then opened f else e
      | none => e) ∧
    ∀ x, x ≠ target → s.2 x ≠ none → s'.2 x = s.2 x := by
  rcases redirectAt_cases hnamed hop h with ⟨hnone, rfl⟩ | ⟨f, hf, h⟩
  · rw [hnone]
    exact ⟨rfl, htarget, fun _ _ _ => rfl⟩
  · simp only [hf]
    by_cases hok : ok f = true
    · simp only [if_pos hok]
      exact redirect_opened ((hopen f).trans (if_pos hok)) (by simp [htarget]) h
    · obtain rfl := redirect_failed ((hopen f).trans (if_neg hok)) h
      rw [if_neg hok, if_neg hok]
      exact ⟨rfl, htarget, fun _ _ _ => rfl⟩

theorem input_block (hnamed : FileNamed v.words) (h0 : s.2 0 = some (.inherited 0))
    (h : redirectAt v.redirection.input fd .read v.redirection.inputRedir 0 v.args s = some s') :
    s'.1 = s.1 ∧ s'.2 0 = some (stdinAfter s.1 v.words) ∧ (s.2 1 ≠ none → s'.2 1 = s.2 1) := by
  obtain ⟨hflag, hidx⟩ := Prod.mk.inj (input_eq (v := v))
  rw [hflag, hidx] at h
  obtain ⟨hfs, hin, hrest⟩ := block_effect hnamed (by decide) s.1.open_read h0 h
  refine ⟨?_, hin, hrest 1 Nat.one_ne_zero⟩
  rw [hfs]
  cases fileAfter less v.words <;> simp

theorem output_block (hnamed : FileNamed v.words) (h1 : s.2 1 = some (.inherited 1))
    (h : redirectAt v.redirection.output fd .write v.redirection.outputRedir 1 v.args s
      = some s') :
    s'.1 = s.1.afterCreate v.words ∧ s'.2 1 = some (createdStdout s.1 v.words) ∧
      (s.2 0 ≠ none → s'.2 0 = s.2 0) := by
  obtain ⟨hflag, hidx⟩ := Prod.mk.inj (output_eq (v := v))
  rw [hflag, hidx] at h
  obtain ⟨hfs, hout, hrest⟩ := block_effect hnamed (by decide) s.1.open_write h1 h
  exact ⟨hfs, hout, hrest 0 Nat.zero_ne_one⟩

theorem append_block {e : FileEnd} (hnamed : FileNamed v.words) (h1 : s.2 1 = some e)
    (h : redirectAt v.redirection.appendFlag fd .append v.redirection.appendRedir 1 v.args s
      = some s') :
    s'.1 = s.1 ∧ s'.2 1 = some (appendedStdout s.1 e v.words) ∧
      (s.2 0 ≠ none → s'.2 0 = s.2 0) := by
  obtain ⟨hflag, hidx⟩ := Prod.mk.inj (append_eq (v := v))
  rw [hflag, hidx] at h
  obtain ⟨hfs, hout, hrest⟩ := block_effect hnamed (by decide) s.1.open_append h1 h
  refine ⟨?_, hout, hrest 0 Nat.zero_ne_one⟩
  rw [hfs]
  cases fileAfter append v.words <;> simp

theorem redirections_effect {fds : ℕ × ℕ × ℕ} {fs fs' : FileSystem} {table table' : FdTable}
    {tempargs t : Args} (hnamed : FileNamed v.words) (h0 : table 0 = some (.inherited 0))
    (h1 : table 1 = some (.inherited 1))
    (h : redirections fds fs table tempargs v.args v.redirection = some (fs', table', t)) :
    fs' = fs.afterCreate v.words ∧ table' 0 = some (stdinAfter fs v.words) ∧
      table' 1 = some (stdoutAfter fs v.words) := by
  simp only [redirections, Option.bind_eq_some_iff, Option.map_eq_some_iff] at h
  obtain ⟨s1, hin, s2, hout, s3, happ, u, -, heq⟩ := h
  cases heq
  obtain ⟨hfs1, hs1, hkeep1⟩ := input_block hnamed h0 hin
  have hs1' : s1.2 1 = some (.inherited 1) := (hkeep1 (by simp [h1])).trans h1
  obtain ⟨hfs2, hs2, hkeep2⟩ := output_block hnamed hs1' hout
  obtain ⟨hfs3, hs3, hkeep3⟩ := append_block hnamed hs2 happ
  rw [hfs1] at hfs2 hs3 hs2
  have hs2' := (hkeep2 (by simp [hs1])).trans hs1
  refine ⟨hfs3.trans hfs2, (hkeep3 (by simp [hs2'])).trans hs2', ?_⟩
  rw [hs3, hfs2, stdoutAfter]

end Blocks

end Effect

section Claimed
variable {ws : List Word} {fs fs' : FileSystem} {table' : FdTable}

structure TakesEffect (ws : List Word) (fs fs' : FileSystem) (table' : FdTable) : Prop where
  input : ∀ f, fileAfter less ws = some f →
    fs.canRead f = true ∧ table' 0 = some (.file f .read)
  created : ∀ f, outputTarget ws = some (greater, f) →
    fs.canCreate f = true ∧ (fs'.file f).any (fun file => file.content.isEmpty) = true ∧
      (table' 1 = some (.file f .write) ∨ table' 1 = some (.file f .append))
  appended : ∀ f, outputTarget ws = some (append, f) →
    fs.canCreate f = true ∧ (fs'.file f).isSome = true ∧ table' 1 = some (.file f .append)

structure Redirectable (fs : FileSystem) (ws : List Word) : Prop where
  input : ∀ f, fileAfter less ws = some f → fs.canRead f = true
  created : ∀ f, outputTarget ws = some (greater, f) → fs.canCreate f = true ∧
    ∀ g, fileAfter append ws = some g → g = f ∨ fs.writable g = false
  appended : ∀ g, outputTarget ws = some (append, g) →
    fs.writable g = true ∨ fileAfter greater ws = some g ∧ fs.canCreate g = true

theorem stdinAfter_iff {f : Word} (hf : fileAfter less ws = some f) :
    stdinAfter fs ws = .file f .read ↔ fs.canRead f = true := by
  by_cases hr : fs.canRead f = true <;> simp [stdinAfter, hf, hr]

theorem created_iff {f : Word} (hf : fileAfter greater ws = some f)
    (hc : fs.canCreate f = true) :
    stdoutAfter fs ws = .file f .write ∨ stdoutAfter fs ws = .file f .append ↔
      ∀ g, fileAfter append ws = some g → g = f ∨ fs.writable g = false := by
  have hcreated : createdStdout fs ws = .file f .write := by simp [createdStdout, hf, hc]
  cases hg : fileAfter append ws with
  | none => simp [stdoutAfter, appendedStdout, hg, hcreated]
  | some g =>
    have hiff : (fs.afterCreate ws).writable g = true ↔ fs.writable g = true ∨ f = g := by
      rw [fs.writable_afterCreate, hf, Option.some.injEq]
      exact or_congr_right ⟨And.left, fun h => ⟨h, h ▸ hc⟩⟩
    by_cases hw : (fs.afterCreate ws).writable g = true
    · simp only [stdoutAfter, appendedStdout, hg, if_pos hw, FileEnd.file.injEq, reduceCtorEq,
        and_false, and_true, false_or, Option.some.injEq, forall_eq']
      constructor
      · exact .inl
      · rintro (heq | hno)
        · exact heq
        · rcases hiff.mp hw with hyes | heq
          · rw [hno] at hyes
            cases hyes
          · exact heq.symm
    · have hno : fs.writable g = false := by
        by_contra hyes
        exact hw (hiff.mpr (.inl (by simpa using hyes)))
      simp [stdoutAfter, appendedStdout, hg, hw, hcreated, hno]

theorem appended_iff {g : Word} (hg : fileAfter append ws = some g) :
    stdoutAfter fs ws = .file g .append ↔ (fs.afterCreate ws).writable g = true := by
  by_cases hw : (fs.afterCreate ws).writable g = true
  · simp [stdoutAfter, appendedStdout, hg, hw]
  · simp only [stdoutAfter, appendedStdout, hg, hw]
    cases hf : fileAfter greater ws with
    | none => simp [createdStdout, hf]
    | some f => by_cases hc : fs.canCreate f = true <;> simp [createdStdout, hf, hc]

theorem isSome_of_writable {f : Word} (h : fs.writable f = true) : (fs.file f).isSome = true := by
  cases hf : fs.file f with
  | none => simp [FileSystem.writable, hf] at h
  | some file => rfl

theorem takesEffect_iff (hfs : fs' = fs.afterCreate ws)
    (h0 : table' 0 = some (stdinAfter fs ws)) (h1 : table' 1 = some (stdoutAfter fs ws)) :
    TakesEffect ws fs fs' table' ↔ Redirectable fs ws := by
  constructor
  · intro h
    refine ⟨fun f hf => (h.input f hf).1, fun f hf => ?_, fun g hg => ?_⟩
    · obtain ⟨hc, -, hout⟩ := h.created f hf
      rw [h1, Option.some.injEq, Option.some.injEq] at hout
      exact ⟨hc, (created_iff (outputTarget_some hf).2 hc).mp hout⟩
    · obtain ⟨-, -, hout⟩ := h.appended g hg
      rw [h1, Option.some.injEq] at hout
      exact fs.writable_afterCreate.mp ((appended_iff (outputTarget_some hg).2).mp hout)
  · intro h
    refine ⟨fun f hf => ?_, fun f hf => ?_, fun g hg => ?_⟩
    · rw [h0, Option.some.injEq]
      exact ⟨h.input f hf, (stdinAfter_iff hf).mpr (h.input f hf)⟩
    · obtain ⟨hc, happ⟩ := h.created f hf
      have hfile := (outputTarget_some hf).2
      rw [h1, Option.some.injEq, Option.some.injEq]
      refine ⟨hc, ?_, (created_iff hfile hc).mpr happ⟩
      rw [hfs, FileSystem.afterCreate, hfile]
      simpa only [hc, if_true] using fs.emptied_content f
    · have hw := fs.writable_afterCreate.mpr (h.appended g hg)
      have hc : fs.canCreate g = true := (h.appended g hg).elim fs.canCreate_of_writable And.right
      rw [h1, hfs, Option.some.injEq]
      exact ⟨hc, isSome_of_writable hw, (appended_iff (outputTarget_some hg).2).mpr hw⟩

end Claimed

section Child
variable {σ : Type} {W : World σ} {v : ArgVector} {s0 s s' : State σ} {a : Actor}

def RedirectsTakeEffect (W : World σ) (v : ArgVector) (s0 : State σ) : Prop :=
  ∀ s, ((child W v).started s0).Reachable s → s.pc = .redirExec ∨ s.pc = .lastExec →
    TakesEffect v.words s0.fs s.fs s.table

def MainPc.unpiped : MainPc σ → Bool
  | .redirExec => true
  | .loop _ inn => inn = 0
  | .dupLast inn => inn = 0
  | .lastArg => true
  | .lastExec => true
  | .running _ => true
  | .exited => true
  | _ => false

def Redirected (v : ArgVector) (s0 s : State σ) : Prop :=
  (s.pc = .start ∧ s.fs = s0.fs ∧ s.table = s0.table ∧ s.tempargs = s0.tempargs) ∨
    s.pc.unpiped = true ∧ ∃ fds t,
      redirections fds s0.fs s0.table s0.tempargs v.args v.redirection = some (s.fs, s.table, t)

theorem redirections_none {fds : ℕ × ℕ × ℕ} {fs : FileSystem} {table : FdTable} {t : Args}
    (hany : v.redirection.any = false) :
    redirections fds fs table t v.args v.redirection = some (fs, table, t) := by
  obtain ⟨⟨hin, hout⟩, happ⟩ : (v.redirection.input = false ∧ v.redirection.output = false) ∧
      v.redirection.appendFlag = false := by simpa [Redirection.any] using hany
  simp [redirections, redirectAt, hin, hout, happ, hany]

theorem redirected_step (hbar : bar ∉ v.words) (h : Redirected v s0 s)
    (hstep : Step W v s a s') : Redirected v s0 s' := by
  rcases h with ⟨hpc0, hfs, htable, htemp⟩ | ⟨hun, hred⟩
  · cases hstep with
    | redirect _ _ hr => exact .inr ⟨rfl, _, _, by rwa [hfs, htable, htemp] at hr⟩
    | plain _ hany =>
      refine .inr ⟨rfl, (0, 0, 0), s0.tempargs, ?_⟩
      simp only [hfs, htable]
      exact redirections_none hany
    | stageMove _ => exact .inl ⟨hpc0, hfs, htable, htemp⟩
    | stageExec _ _ => exact .inl ⟨hpc0, hfs, htable, htemp⟩
    | stageRun _ _ _ => exact .inl ⟨hpc0, hfs, htable, htemp⟩
    | _ => simp_all
  · cases hstep with
    | redirect hpc _ _ => rw [hpc] at hun; cases hun
    | plain hpc _ => rw [hpc] at hun; cases hun
    | redirExec hpc =>
      refine .inr ⟨?_, hred⟩
      cases hW : W.redirExec <;> rfl
    | pipe _ hlt _ _ _ =>
      rw [pipeCounter_of_not_mem hbar] at hlt
      exact absurd hlt (Nat.not_lt_zero _)
    | nextArg hpc _ => rw [hpc] at hun; cases hun
    | fork hpc => rw [hpc] at hun; cases hun
    | waitpid hpc _ => rw [hpc] at hun; cases hun
    | close hpc => rw [hpc] at hun; cases hun
    | done hpc _ =>
      rw [hpc] at hun
      exact .inr ⟨hun, hred⟩
    | dupLast hpc =>
      rw [hpc] at hun
      obtain rfl : _ = 0 := by simpa [MainPc.unpiped] using hun
      exact .inr ⟨rfl, hred⟩
    | lastArg _ _ => exact .inr ⟨rfl, hred⟩
    | lastExec _ _ => exact .inr ⟨rfl, hred⟩
    | @run p p' act c _ _ _ =>
      refine .inr ⟨?_, hred⟩
      by_cases hact : act = .exit <;> simp [hact, MainPc.unpiped]
    | stageMove _ => exact .inr ⟨hun, hred⟩
    | stageExec _ _ => exact .inr ⟨hun, hred⟩
    | stageRun _ _ _ => exact .inr ⟨hun, hred⟩

theorem redirected_reachable (hbar : bar ∉ v.words) (hboot : Boot s0)
    (hs : ((child W v).started s0).Reachable s) : Redirected v s0 s := by
  refine hs.invariant (fun s h => ?_) fun _ _ _ _ h hstep => redirected_step hbar h hstep
  obtain rfl : s = s0 := h
  exact .inl ⟨hboot.pc, rfl, rfl, rfl⟩

theorem exec_takesEffect_iff (hbar : bar ∉ v.words) (hnamed : FileNamed v.words)
    (hboot : Boot s0) (hs : ((child W v).started s0).Reachable s) (hpc : s.pc ≠ .start) :
    TakesEffect v.words s0.fs s.fs s.table ↔ Redirectable s0.fs v.words := by
  rcases redirected_reachable hbar hboot hs with ⟨hstart, -⟩ | ⟨-, fds, t, hr⟩
  · exact absurd hstart hpc
  · obtain ⟨fds, h0, h1, -, htable⟩ := hboot.table
    obtain ⟨hfs, hin, hout⟩ := redirections_effect hnamed (by rw [htable]; exact if_pos h0)
      (by rw [htable]; exact if_pos h1) hr
    exact takesEffect_iff hfs hin hout

theorem redirectable_of_none (hany : v.redirection.any = false) (fs : FileSystem) :
    Redirectable fs v.words := by
  have hno (op : Word) (hop : isRedir op = true) : fileAfter op v.words = none := by
    cases hi : lastIdx (· = op) v.words with
    | none => simp [fileAfter, hi]
    | some i =>
      obtain ⟨⟨w, hw, hwop⟩, -⟩ := lastIdx_some hi
      obtain rfl : w = op := by simpa using hwop
      rw [v.redirection_any, List.any_eq_false] at hany
      exact absurd hop (hany w (List.mem_of_getElem? hw))
  have hless := hno less (by decide)
  refine ⟨fun f hf => ?_, fun f hf => ?_, fun g hg => ?_⟩
  · rw [hless] at hf
    cases hf
  · have := (outputTarget_some hf).2
    rw [hno greater (by decide)] at this
    cases this
  · have := (outputTarget_some hg).2
    rw [hno append (by decide)] at this
    cases this

theorem exec_reachable (W : World σ) (hnamed : FileNamed v.words) (hboot : Boot s0)
    (hany : v.redirection.any = true) :
    ∃ s, ((child W v).started s0).Reachable s ∧ s.pc = .redirExec := by
  have hpos : 0 < v.numArgs := by
    rw [← v.length_words, List.length_pos_iff]
    intro hnil
    rw [v.redirection_any, hnil] at hany
    cases hany
  obtain ⟨fds, fs, table, t, -, hr⟩ := redirections_total (v := v) s0.fs
    (inv_boot (v := v) hboot).bounded s0.tempargs hnamed hpos
  have hinit : ((child W v).started s0).Reachable s0 := .init rfl
  exact ⟨_, hinit.step (.redirect hboot.pc hany hr), rfl⟩

theorem redirectable_of_takeEffect (hbar : bar ∉ v.words) (hnamed : FileNamed v.words)
    (hboot : Boot s0) (h : RedirectsTakeEffect W v s0) : Redirectable s0.fs v.words := by
  cases hany : v.redirection.any with
  | false => exact redirectable_of_none hany s0.fs
  | true =>
    obtain ⟨s, hs, hpc⟩ := exec_reachable W hnamed hboot hany
    exact (exec_takesEffect_iff hbar hnamed hboot hs (by simp [hpc])).mp (h s hs (.inl hpc))

theorem redirects_take_effect_iff (hbar : bar ∉ v.words) (hnamed : FileNamed v.words)
    (hboot : Boot s0) : RedirectsTakeEffect W v s0 ↔ Redirectable s0.fs v.words := by
  refine ⟨redirectable_of_takeEffect hbar hnamed hboot, fun h s hs hpc => ?_⟩
  refine (exec_takesEffect_iff hbar hnamed hboot hs ?_).mpr h
  rcases hpc with hpc | hpc <;> simp [hpc]

def oneFile (name : Word) (file : Option File) : FileSystem where
  file := Function.update (fun _ => none) name file
  creatable _ := true

def bootWith (fs : FileSystem) : State σ := { bootState with fs := fs }

theorem boot_with (fs : FileSystem) : Boot (bootWith fs : State σ) :=
  ⟨rfl, (boot_state (σ := σ)).table, rfl, fun _ => rfl, fun _ => rfl, rfl, rfl⟩

theorem input_redirected : RedirectsTakeEffect idle catFrom
    (bootWith (oneFile ['f'] (some ⟨[], true, true⟩))) := by
  refine (redirects_take_effect_iff (by decide) (by decide) (boot_with _)).mpr
    ⟨fun f hf => ?_, nofun, nofun⟩
  obtain rfl : ['f'] = f := Option.some.inj hf
  decide

def lsOnto : ArgVector := .ofWords [['l', 's'], append, ['n', 'e', 'w']] (by decide)

theorem append_not_created : bar ∉ lsOnto.words ∧ FileNamed lsOnto.words ∧
    ¬ RedirectsTakeEffect idle lsOnto (bootWith (oneFile ['n', 'e', 'w'] none)) := by
  have hnamed : FileNamed lsOnto.words := by decide
  refine ⟨by decide, hnamed, fun h => ?_⟩
  have hred := redirectable_of_takeEffect (by decide) hnamed (boot_with _) h
  have := hred.appended ['n', 'e', 'w'] (by decide)
  revert this
  decide

end Child

end Shell
