import Cs345.Shell.Args
import Mathlib.Data.Set.Finite.Basic

namespace Shell

section Descriptors

inductive OpenMode where
  | read
  | write
  | append

inductive FileEnd where
  | inherited (fd : ℕ)
  | file (name : Word) (mode : OpenMode)
  | readEnd (pipe : ℕ)
  | writeEnd (pipe : ℕ)

abbrev FdTable := ℕ → Option FileEnd

def dup2 (t : FdTable) (oldfd newfd : ℕ) : FdTable :=
  match t oldfd with
  | none => t
  | some e => Function.update t newfd (some e)

def close (t : FdTable) (fd : ℕ) : FdTable := Function.update t fd none

def Holds (t : FdTable) (e : FileEnd) : Prop := ∃ fd, t fd = some e

def Bounded (t : FdTable) : Prop := ∃ n, ∀ fd, n ≤ fd → t fd = none

variable {t : FdTable} {a b fd : ℕ} {e x : FileEnd}

theorem dup2_at (h : t a = some e) : dup2 t a b b = some e := by simp [dup2, h]

theorem dup2_of_ne (h : fd ≠ b) : dup2 t a b fd = t fd := by
  cases ha : t a <;> simp [dup2, ha, h]

theorem close_of_ne (h : fd ≠ a) : close t a fd = t fd := by simp [close, h]

theorem close_some (h : close t a fd = some e) : fd ≠ a ∧ t fd = some e := by
  by_cases hfd : fd = a
  · simp [close, hfd] at h
  · exact ⟨hfd, (close_of_ne hfd).symm.trans h⟩

theorem Holds.of_dup2 (h : Holds (dup2 t a b) e) : Holds t e := by
  obtain ⟨fd, hfd⟩ := h
  by_cases hb : fd = b
  · cases ha : t a with
    | none => exact ⟨fd, by simpa [dup2, ha] using hfd⟩
    | some x =>
      rw [hb, dup2_at ha] at hfd
      exact ⟨a, ha.trans hfd⟩
  · exact ⟨fd, (dup2_of_ne hb).symm.trans hfd⟩

theorem Holds.of_close (h : Holds (close t a) e) : Holds t e := by
  obtain ⟨fd, hfd⟩ := h
  exact ⟨fd, (close_some hfd).2⟩

theorem Bounded.exists_free (h : Bounded t) (avoid : ℕ) : ∃ fd, t fd = none ∧ fd ≠ avoid := by
  obtain ⟨n, hn⟩ := h
  exact ⟨n + avoid + 1, hn _ (by omega), by omega⟩

theorem Bounded.update (h : Bounded t) (o : Option FileEnd) : Bounded (Function.update t a o) := by
  obtain ⟨n, hn⟩ := h
  exact ⟨n + a + 1, fun fd hfd => by rw [Function.update_of_ne (by omega), hn fd (by omega)]⟩

theorem Bounded.close (h : Bounded t) : Bounded (close t a) := h.update none

theorem Bounded.dup2 (h : Bounded t) : Bounded (dup2 t a b) := by
  cases ha : t a with
  | none => simpa only [Shell.dup2, ha] using h
  | some e => simpa only [Shell.dup2, ha] using h.update (some e)

end Descriptors

section Files

structure File where
  content : List Char
  readable : Bool
  writable : Bool

structure FileSystem where
  file : Word → Option File
  creatable : Word → Bool

-- open for reading, creat, and open for appending without O_CREAT; `none` is -1
def openFile (fs : FileSystem) : OpenMode → Option Word → Option (FileSystem × FileEnd)
  | _, none => none
  | .read, some name =>
    match fs.file name with
    | some f => if f.readable then some (fs, .file name .read) else none
    | none => none
  | .write, some name =>
    match fs.file name with
    | some f =>
      if f.writable then
        some ({ fs with file := Function.update fs.file name (some { f with content := [] }) },
          .file name .write)
      else none
    | none =>
      if fs.creatable name then
        some ({ fs with file := Function.update fs.file name (some ⟨[], true, true⟩) },
          .file name .write)
      else none
  | .append, some name =>
    match fs.file name with
    | some f => if f.writable then some (fs, .file name .append) else none
    | none => none

def redirect (fd : ℕ) (mode : OpenMode) (name : Option Word) (target : ℕ)
    (s : FileSystem × FdTable) : Option (FileSystem × FdTable) :=
  match openFile s.1 mode name with
  | none => some s
  | some (fs, e) =>
    if (s.2 fd).isNone then
      some (fs, close (dup2 (Function.update s.2 fd (some e)) fd target) fd)
    else none

end Files

section Redirections

def readArg (args : Args) (i : ℕ) : Option (Option Word) := if i < SIZE then some (args i) else none

def stripNext (args : Args) (loop : ℕ → ℕ → Args → Option Args) (i j : ℕ) (tempargs : Args) :
    Option Args :=
  match readArg args i with
  | none => none
  | some none => some (Function.update tempargs j none)
  | some (some _) => loop i j tempargs

def stripArgs (args : Args) : ℕ → ℕ → ℕ → Args → Option Args
  | 0, _, j, tempargs => some (Function.update tempargs j none)
  | n + 1, i, j, tempargs =>
    if i < SIZE then
      match args i with
      | none => none
      | some w =>
        if isRedir w then stripNext args (stripArgs args n) (i + 2) j tempargs
        else stripNext args (stripArgs args n) (i + 1) (j + 1) (Function.update tempargs j (some w))
    else some (Function.update tempargs j none)

def redirectAt (flag : Bool) (fd : ℕ) (mode : OpenMode) (i target : ℕ) (args : Args)
    (s : FileSystem × FdTable) : Option (FileSystem × FdTable) :=
  if flag then (readArg args (i + 1)).bind fun name => redirect fd mode name target s else some s

def redirections (fds : ℕ × ℕ × ℕ) (fs : FileSystem) (table : FdTable) (tempargs args : Args)
    (r : Redirection) : Option (FileSystem × FdTable × Args) :=
  (redirectAt r.input fds.1 .read r.inputRedir 0 args (fs, table)).bind fun s =>
  (redirectAt r.output fds.2.1 .write r.outputRedir 1 args s).bind fun s =>
  (redirectAt r.appendFlag fds.2.2 .append r.appendRedir 1 args s).bind fun s =>
  (if r.any then stripArgs args SIZE 0 0 tempargs else some tempargs).map fun t => (s.1, s.2, t)

def stripped : List Word → List Word
  | [] => []
  | [w] => if isRedir w then [] else [w]
  | w :: x :: ws => if isRedir w then stripped ws else w :: stripped (x :: ws)

def FileNamed : List Word → Prop
  | [] => True
  | w :: ws => (isRedir w = true → ∃ x ∈ ws.head?, isOperator x = false) ∧ FileNamed ws

instance decidableFileNamed : DecidablePred FileNamed
  | [] => isTrue trivial
  | w :: ws =>
    have := decidableFileNamed ws
    inferInstanceAs (Decidable
      ((isRedir w = true → ∃ x ∈ ws.head?, isOperator x = false) ∧ FileNamed ws))

section Stripped
variable {w x : Word} {ws : List Word}

theorem stripped_cons (h : isRedir w = false) : stripped (w :: ws) = w :: stripped ws := by
  cases ws <;> simp [stripped, h]

theorem stripped_redir (h : isRedir w = true) : stripped (w :: x :: ws) = stripped ws := by
  simp [stripped, h]

theorem stripped_sublist (ws : List Word) : (stripped ws).Sublist ws := by
  induction ws using stripped.induct with
  | case1 => exact .slnil
  | case2 w hw => simp [stripped, hw]
  | case3 w hw => simp [stripped, hw]
  | case4 w x ws hw ih =>
    rw [stripped_redir hw]
    exact (ih.cons x).cons w
  | case5 w x ws hw ih =>
    rw [stripped_cons (by simpa using hw)]
    exact ih.cons_cons w

theorem not_redir_of_stripped (ws : List Word) : ∀ w ∈ stripped ws, isRedir w = false := by
  induction ws using stripped.induct with
  | case1 => nofun
  | case2 w hw => simp [stripped, hw]
  | case3 w hw => simp [stripped, hw]
  | case4 w x ws hw ih => rwa [stripped_redir hw]
  | case5 w x ws hw ih =>
    have hw : isRedir w = false := by simpa using hw
    rw [stripped_cons hw]
    exact List.forall_mem_cons.mpr ⟨hw, ih⟩

theorem FileNamed.mem_stripped (h : FileNamed ws) (hw : w ∈ ws) (hop : isRedir w = false)
    (hbar : isOperator w = true) : w ∈ stripped ws := by
  induction ws using stripped.induct with
  | case1 => cases hw
  | case2 u hu =>
    obtain rfl := List.mem_singleton.mp hw
    rw [hop] at hu
    cases hu
  | case3 u hu =>
    obtain rfl := List.mem_singleton.mp hw
    simp [stripped, hop]
  | case4 u x ws hu ih =>
    obtain ⟨hname, -, h⟩ := h
    obtain ⟨y, hy, hny⟩ := hname hu
    obtain rfl : x = y := by simpa using hy
    rw [stripped_redir hu]
    rcases List.mem_cons.mp hw with rfl | hw
    · rw [hop] at hu; cases hu
    · rcases List.mem_cons.mp hw with rfl | hw
      · rw [hbar] at hny; cases hny
      · exact ih h hw
  | case5 u x ws hu ih =>
    rw [stripped_cons (by simpa using hu)]
    rcases List.mem_cons.mp hw with rfl | hw
    · exact List.mem_cons_self
    · exact List.mem_cons_of_mem _ (ih h.2 hw)

end Stripped

section Strip
variable {v : ArgVector}

theorem readArg_of_le {i : ℕ} (hi : i ≤ v.numArgs) : readArg v.args i = some (v.args i) :=
  if_pos (hi.trans_lt v.lt_size)

theorem stripArgs_spec (n : ℕ) : ∀ (i j : ℕ) (t : Args), SIZE ≤ i + n → i < v.numArgs →
    FileNamed (wordsAt v.args i) →
    ∃ t', stripArgs v.args n i j t = some t' ∧ (∀ x < j, t' x = t x) ∧
      ∀ m ≤ (stripped (wordsAt v.args i)).length,
        t' (j + m) = (stripped (wordsAt v.args i))[m]? := by
  have hlt := v.lt_size
  induction n with
  | zero => intro i j t hn hi; omega
  | succ n ih =>
    intro i j t hn hi hnamed
    have hnext (i' j : ℕ) (t : Args) (hi' : SIZE ≤ i' + n) (hle : i' ≤ v.numArgs)
        (hnamed : FileNamed (wordsAt v.args i')) :
        ∃ t', stripNext v.args (stripArgs v.args n) i' j t = some t' ∧ (∀ x < j, t' x = t x) ∧
          ∀ m ≤ (stripped (wordsAt v.args i')).length,
            t' (j + m) = (stripped (wordsAt v.args i'))[m]? := by
      have hread := readArg_of_le hle
      rcases Nat.lt_or_eq_of_le hle with hi' | rfl
      · obtain ⟨w, hw⟩ := v.some_of_lt hi'
        simp only [stripNext, hread, hw]
        exact ih i' j t (by omega) hi' hnamed
      · refine ⟨Function.update t j none, ?_, fun x hx => ?_, fun m hm => ?_⟩
        · simp [stripNext, hread, v.null]
        · rw [Function.update_of_ne (by omega)]
        · rw [wordsAt_none v.null] at hm ⊢
          obtain rfl : m = 0 := by simpa [stripped] using hm
          simp [stripped]
    obtain ⟨w, hw⟩ := v.some_of_lt hi
    have hcons := wordsAt_some (by omega) hw
    rw [hcons] at hnamed ⊢
    simp only [stripArgs, if_pos (show i < SIZE by omega), hw]
    by_cases hop : isRedir w = true
    · obtain ⟨x, hx, -⟩ := hnamed.1 hop
      have hi1 : i + 1 < v.numArgs := by
        by_contra hno
        have : i + 1 = v.numArgs := by omega
        rw [wordsAt_none (this ▸ v.null)] at hx
        cases hx
      obtain ⟨y, hy⟩ := v.some_of_lt hi1
      have hcons' := wordsAt_some (by omega) hy
      rw [hcons'] at hnamed ⊢
      rw [if_pos hop, stripped_redir hop]
      exact hnext (i + 2) j t (by omega) (by omega) hnamed.2.2
    · have hop : isRedir w = false := by simpa using hop
      rw [hop, if_neg (by simp), stripped_cons hop]
      obtain ⟨t', heq, hlow, hrest⟩ :=
        hnext (i + 1) (j + 1) (Function.update t j (some w)) (by omega) hi hnamed.2
      refine ⟨t', heq, fun x hx => ?_, fun m hm => ?_⟩
      · rw [hlow x (by omega), Function.update_of_ne (by omega)]
      · cases m with
        | zero =>
          rw [Nat.add_zero, hlow j (by omega), Function.update_self]
          rfl
        | succ m =>
          rw [List.getElem?_cons_succ, ← hrest m (by simpa using hm)]
          congr 1
          omega

theorem stripArgs_words (hnamed : FileNamed v.words) (hpos : 0 < v.numArgs) (t : Args) :
    ∃ t', stripArgs v.args SIZE 0 0 t = some t' ∧ words t' = stripped v.words := by
  obtain ⟨t', heq, -, hrest⟩ := stripArgs_spec SIZE 0 0 t (by omega) hpos hnamed
  have hlen := (stripped_sublist v.words).length_le
  have hwords := v.length_words
  have hlt := v.lt_size
  exact ⟨t', heq, wordsAt_eq _ 0 hrest (by omega)⟩

theorem redirectAt_total (flag : Bool) (mode : OpenMode) {i : ℕ} (target : ℕ) (args : Args)
    {s : FileSystem × FdTable} (hi : i + 1 < SIZE) (hs : Bounded s.2) :
    ∃ fd s', redirectAt flag fd mode i target args s = some s' ∧ Bounded s'.2 := by
  obtain ⟨fd, hfree, -⟩ := hs.exists_free 0
  cases flag with
  | false => exact ⟨fd, s, rfl, hs⟩
  | true =>
    cases ho : openFile s.1 mode (args (i + 1)) with
    | none => exact ⟨fd, s, by simp [redirectAt, readArg, hi, redirect, ho], hs⟩
    | some r =>
      exact ⟨fd, (r.1, close (dup2 (Function.update s.2 fd (some r.2)) fd target) fd),
        by simp [redirectAt, readArg, hi, redirect, ho, hfree], (hs.update _).dup2.close⟩

theorem redirections_of_strip (fs : FileSystem) {table : FdTable} (htable : Bounded table)
    {tempargs t : Args} (ht : stripArgs v.args SIZE 0 0 tempargs = some t) :
    ∃ fds fs' table' t', Bounded table' ∧
      redirections fds fs table tempargs v.args v.redirection = some (fs', table', t') := by
  obtain ⟨hin, hout, happ⟩ := v.redirection_lt
  obtain ⟨fd0, s0, h0, hb0⟩ :=
    redirectAt_total v.redirection.input .read 0 v.args (s := (fs, table)) hin htable
  obtain ⟨fd1, s1, h1, hb1⟩ := redirectAt_total v.redirection.output .write 1 v.args hout hb0
  obtain ⟨fd2, s2, h2, hb2⟩ := redirectAt_total v.redirection.appendFlag .append 1 v.args happ hb1
  refine ⟨(fd0, fd1, fd2), s2.1, s2.2, if v.redirection.any then t else tempargs, hb2, ?_⟩
  simp only [redirections, h0, h1, h2, Option.bind_some]
  split <;> simp [ht]

theorem redirections_total (fs : FileSystem) {table : FdTable} (htable : Bounded table)
    (tempargs : Args) (hnamed : FileNamed v.words) (hpos : 0 < v.numArgs) :
    ∃ fds fs' table' t', Bounded table' ∧
      redirections fds fs table tempargs v.args v.redirection = some (fs', table', t') := by
  obtain ⟨t', ht, -⟩ := stripArgs_words hnamed hpos tempargs
  exact redirections_of_strip fs htable ht

theorem redirections_strip {fds : ℕ × ℕ × ℕ} {fs fs' : FileSystem} {table table' : FdTable}
    {tempargs t : Args} (hany : v.redirection.any = true)
    (h : redirections fds fs table tempargs v.args v.redirection = some (fs', table', t)) :
    stripArgs v.args SIZE 0 0 tempargs = some t := by
  simp only [redirections, Option.bind_eq_some_iff, Option.map_eq_some_iff, if_pos hany] at h
  obtain ⟨_, -, _, -, _, -, u, hu, heq⟩ := h
  cases heq
  exact hu

theorem redirections_tempargs {fds : ℕ × ℕ × ℕ} {fs fs' : FileSystem} {table table' : FdTable}
    {tempargs t : Args} (hany : v.redirection.any = true) (hnamed : FileNamed v.words)
    (hpos : 0 < v.numArgs)
    (h : redirections fds fs table tempargs v.args v.redirection = some (fs', table', t)) :
    words t = stripped v.words := by
  obtain ⟨t', ht, hwords⟩ := stripArgs_words hnamed hpos tempargs
  obtain rfl := Option.some.inj (ht.symm.trans (redirections_strip hany h))
  exact hwords

end Strip

end Redirections
end Shell
