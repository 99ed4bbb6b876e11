import Cs345.Fields
import Cs345.Shell.Targets

namespace Shell

section Positions

def stripPositionsNext (args : Args) (loop : ℕ → Option (List ℕ)) (i : ℕ) : Option (List ℕ) :=
  match readArg args i with
  | none => none
  | some none => some []
  | some (some _) => loop i

def stripPositions (args : Args) : ℕ → ℕ → Option (List ℕ)
  | 0, _ => some []
  | n + 1, i =>
    if i < SIZE then
      match args i with
      | none => none
      | some w =>
        if isRedir w then stripPositionsNext args (stripPositions args n) (i + 2)
        else (stripPositionsNext args (stripPositions args n) (i + 1)).map (i :: ·)
    else some []

structure Copied (args : Args) (ps : List ℕ) (j : ℕ) (t t' : Args) : Prop where
  below : ∀ x < j, t' x = t x
  entries : ∀ m < ps.length, t' (j + m) = ps[m]?.bind args
  null : t' (j + ps.length) = none

variable {args t t' : Args} {ps : List ℕ} {i j n : ℕ}

theorem Copied.cons {w : Word} (hw : args i = some w)
    (h : Copied args ps (j + 1) (Function.update t j (some w)) t') :
    Copied args (i :: ps) j t t' := by
  obtain ⟨hbelow, hentries, hnull⟩ := h
  refine ⟨fun x hx => ?_, fun m hm => ?_, ?_⟩
  · rw [hbelow x (by omega), Function.update_of_ne (by omega)]
  · cases m with
    | zero =>
      rw [Nat.add_zero, hbelow j (by omega), Function.update_self]
      exact hw.symm
    | succ m =>
      rw [List.getElem?_cons_succ, ← hentries m (by simpa using hm)]
      congr 1
      omega
  · rw [← hnull, List.length_cons]
    congr 1
    omega

theorem copied_nil (args t : Args) (j : ℕ) : Copied args [] j t (Function.update t j none) :=
  ⟨fun x hx => Function.update_of_ne (by omega) _ _, fun m hm => absurd hm (Nat.not_lt_zero m),
    Function.update_self _ _ _⟩

theorem stripNext_positions {loop : ℕ → ℕ → Args → Option Args}
    {loopPositions : ℕ → Option (List ℕ)}
    (hloop : ∀ i j t, (loop i j t).isSome = (loopPositions i).isSome ∧
      ∀ t', loop i j t = some t' → ∃ ps, loopPositions i = some ps ∧ Copied args ps j t t')
    (i j : ℕ) (t : Args) :
    (stripNext args loop i j t).isSome = (stripPositionsNext args loopPositions i).isSome ∧
      ∀ t', stripNext args loop i j t = some t' →
        ∃ ps, stripPositionsNext args loopPositions i = some ps ∧ Copied args ps j t t' := by
  rw [stripNext, stripPositionsNext]
  cases readArg args i with
  | none => exact ⟨rfl, fun t' h => by cases h⟩
  | some x =>
    cases x with
    | none => exact ⟨rfl, fun t' h => ⟨[], rfl, Option.some.inj h ▸ copied_nil args t j⟩⟩
    | some w => exact hloop i j t

theorem stripArgs_positions (args : Args) (n : ℕ) : ∀ (i j : ℕ) (t : Args),
    (stripArgs args n i j t).isSome = (stripPositions args n i).isSome ∧
      ∀ t', stripArgs args n i j t = some t' →
        ∃ ps, stripPositions args n i = some ps ∧ Copied args ps j t t' := by
  induction n with
  | zero => exact fun i j t => ⟨rfl, fun t' h => ⟨[], rfl, Option.some.inj h ▸ copied_nil args t j⟩⟩
  | succ n ih =>
    intro i j t
    rw [stripArgs, stripPositions]
    by_cases hi : i < SIZE
    · rw [if_pos hi, if_pos hi]
      cases hw : args i with
      | none => exact ⟨rfl, fun t' h => by cases h⟩
      | some w =>
        by_cases hop : isRedir w = true
        · simp only [hop, if_true]
          exact stripNext_positions ih (i + 2) j t
        · simp only [if_neg hop]
          obtain ⟨hsome, hcopied⟩ :=
            stripNext_positions ih (i + 1) (j + 1) (Function.update t j (some w))
          refine ⟨by rw [hsome, Option.isSome_map], fun t' h => ?_⟩
          obtain ⟨ps, hps, hc⟩ := hcopied t' h
          exact ⟨i :: ps, by rw [hps]; rfl, hc.cons hw⟩
    · rw [if_neg hi, if_neg hi]
      exact ⟨rfl, fun t' h => ⟨[], rfl, Option.some.inj h ▸ copied_nil args t j⟩⟩

end Positions

section Parity
variable {v : ArgVector} {i n : ℕ}

def operatorsBefore (ws : List Word) (i : ℕ) : ℕ := Fields.runBefore isRedir ws i

def isPlain (ws : List Word) (i : ℕ) : Bool := ws[i]?.any (!isRedir ·)

def isMet (ws : List Word) (i : ℕ) : Bool := isPlain ws i && operatorsBefore ws i % 2 = 0

theorem isPlain_some {ws : List Word} {w : Word} (h : ws[i]? = some w) :
    isPlain ws i = !isRedir w := by
  rw [isPlain, h]
  rfl

theorem operatorsBefore_plain {ws : List Word} {w : Word} (h : ws[i]? = some w)
    (hop : isRedir w = false) : operatorsBefore ws (i + 1) = 0 := Fields.runBefore_neg h hop

theorem operatorsBefore_redir {ws : List Word} {w : Word} (h : ws[i]? = some w)
    (hop : isRedir w = true) : operatorsBefore ws (i + 1) = operatorsBefore ws i + 1 :=
  Fields.runBefore_pos h hop

theorem operatorsBefore_two {ws : List Word} {w x : Word} (h : ws[i]? = some w)
    (hop : isRedir w = true) (hx : ws[i + 1]? = some x) (heven : operatorsBefore ws i % 2 = 0) :
    operatorsBefore ws (i + 2) % 2 = 0 := by
  have hnext := operatorsBefore_redir h hop
  cases hxop : isRedir x with
  | true =>
    have htwo : operatorsBefore ws (i + 2) = operatorsBefore ws (i + 1) + 1 :=
      operatorsBefore_redir hx hxop
    omega
  | false =>
    have hzero : operatorsBefore ws (i + 2) = 0 := operatorsBefore_plain hx hxop
    rw [hzero]

theorem isMet_redir {ws : List Word} {w : Word} (h : ws[i]? = some w) (hop : isRedir w = true) :
    isMet ws i = false := by
  rw [isMet, isPlain_some h, hop]
  rfl

theorem isMet_behind {ws : List Word} {w : Word} (h : ws[i]? = some w) (hop : isRedir w = true)
    (heven : operatorsBefore ws i % 2 = 0) : isMet ws (i + 1) = false := by
  have hnext := operatorsBefore_redir h hop
  have hodd : ¬ operatorsBefore ws (i + 1) % 2 = 0 := by omega
  simp [isMet, hodd]

theorem word_of_lt (hi : i < v.numArgs) : ∃ w, v.args i = some w ∧ v.words[i]? = some w := by
  obtain ⟨w, hw⟩ := v.some_of_lt hi
  exact ⟨w, hw, (getElem_words hi).trans hw⟩

theorem positionsNext_word (loop : ℕ → Option (List ℕ)) (hi : i < v.numArgs) :
    stripPositionsNext v.args loop i = loop i := by
  obtain ⟨w, hw⟩ := v.some_of_lt hi
  rw [stripPositionsNext, readArg_of_le hi.le, hw]

theorem positionsNext_null (loop : ℕ → Option (List ℕ)) :
    stripPositionsNext v.args loop v.numArgs = some [] := by
  rw [stripPositionsNext, readArg_of_le (Nat.le_refl _), v.null]

theorem positions_plain {w : Word} (hi : i < SIZE) (hw : v.args i = some w)
    (hop : isRedir w = false) : stripPositions v.args (n + 1) i =
      (stripPositionsNext v.args (stripPositions v.args n) (i + 1)).map (i :: ·) := by
  simp only [stripPositions, if_pos hi, hw, hop, Bool.false_eq_true, if_false]

theorem positions_redir {w : Word} (hi : i < SIZE) (hw : v.args i = some w)
    (hop : isRedir w = true) : stripPositions v.args (n + 1) i =
      stripPositionsNext v.args (stripPositions v.args n) (i + 2) := by
  simp only [stripPositions, if_pos hi, hw, hop, if_true]

theorem positions_met (hend : operatorsBefore v.words v.numArgs % 2 = 0) (n : ℕ) :
    ∀ i, SIZE ≤ i + n → i < v.numArgs → operatorsBefore v.words i % 2 = 0 →
      stripPositions v.args n i =
        some ((List.range' i (v.numArgs - i)).filter (isMet v.words)) := by
  have hlt := v.lt_size
  induction n with
  | zero =>
    intro i hn hi
    omega
  | succ n ih =>
    intro i hn hi heven
    have hnext (k : ℕ) (hk : SIZE ≤ k + n) (hle : k ≤ v.numArgs)
        (heven : operatorsBefore v.words k % 2 = 0) :
        stripPositionsNext v.args (stripPositions v.args n) k =
          some ((List.range' k (v.numArgs - k)).filter (isMet v.words)) := by
      rcases Nat.lt_or_eq_of_le hle with hk' | rfl
      · rw [positionsNext_word _ hk', ih k hk hk' heven]
      · rw [positionsNext_null, Nat.sub_self]
        rfl
    obtain ⟨w, hw, hword⟩ := word_of_lt hi
    have hone : v.numArgs - i = v.numArgs - (i + 1) + 1 := by omega
    rw [hone, List.range'_succ]
    cases hop : isRedir w with
    | false =>
      have hmet : isMet v.words i = true := by simp [isMet, isPlain_some hword, hop, heven]
      have hzero := operatorsBefore_plain hword hop
      rw [positions_plain (by omega) hw hop, hnext (i + 1) (by omega) hi (by omega),
        List.filter_cons_of_pos hmet]
      rfl
    | true =>
      have hodd := operatorsBefore_redir hword hop
      have hi1 : i + 1 < v.numArgs := by
        by_contra hno
        have hlast : i + 1 = v.numArgs := by omega
        rw [hlast] at hodd
        omega
      obtain ⟨x, -, hbehind⟩ := word_of_lt hi1
      have htwo : v.numArgs - (i + 1) = v.numArgs - (i + 2) + 1 := by omega
      rw [positions_redir (by omega) hw hop,
        hnext (i + 2) (by omega) (by omega) (operatorsBefore_two hword hop hbehind heven), htwo,
        List.range'_succ, List.filter_cons_of_neg (by simp [isMet_redir hword hop]),
        List.filter_cons_of_neg (by simp [isMet_behind hword hop heven])]

theorem positions_stale (hstale : ∀ i, v.numArgs < i → v.args i = some []) (n : ℕ) :
    ∀ i, SIZE ≤ i + n → v.numArgs < i →
      stripPositionsNext v.args (stripPositions v.args n) i = none := by
  have hout (n : ℕ) {i : ℕ} (hi : ¬ i < SIZE) :
      stripPositionsNext v.args (stripPositions v.args n) i = none := by
    have hread : readArg v.args i = none := if_neg hi
    rw [stripPositionsNext, hread]
  induction n with
  | zero =>
    intro i hn hi
    exact hout 0 (by omega)
  | succ n ih =>
    intro i hn hi
    by_cases hsize : i < SIZE
    · have hread : readArg v.args i = some (some []) := (if_pos hsize).trans (by rw [hstale i hi])
      rw [stripPositionsNext, hread, positions_plain hsize (hstale i hi) (by decide),
        ih (i + 1) (by omega) (by omega)]
      rfl
    · exact hout (n + 1) hsize

theorem positions_overrun (hstale : ∀ i, v.numArgs < i → v.args i = some [])
    (hend : operatorsBefore v.words v.numArgs % 2 = 1) (n : ℕ) :
    ∀ i, SIZE ≤ i + n → i < v.numArgs → operatorsBefore v.words i % 2 = 0 →
      stripPositions v.args n i = none := by
  have hlt := v.lt_size
  induction n with
  | zero =>
    intro i hn hi
    omega
  | succ n ih =>
    intro i hn hi heven
    have hnext (k : ℕ) (hk : SIZE ≤ k + n) (hne : k ≠ v.numArgs)
        (heven : k < v.numArgs → operatorsBefore v.words k % 2 = 0) :
        stripPositionsNext v.args (stripPositions v.args n) k = none := by
      rcases Nat.lt_or_gt_of_ne hne with hk' | hk'
      · rw [positionsNext_word _ hk', ih k hk hk' (heven hk')]
      · exact positions_stale hstale n k hk hk'
    obtain ⟨w, hw, hword⟩ := word_of_lt hi
    cases hop : isRedir w with
    | false =>
      have hzero := operatorsBefore_plain hword hop
      have hne : i + 1 ≠ v.numArgs := by
        intro hlast
        rw [hlast] at hzero
        omega
      rw [positions_plain (by omega) hw hop, hnext (i + 1) (by omega) hne fun _ => by omega]
      rfl
    | true =>
      have htwo (hi1 : i + 1 < v.numArgs) : operatorsBefore v.words (i + 2) % 2 = 0 := by
        obtain ⟨x, -, hbehind⟩ := word_of_lt hi1
        exact operatorsBefore_two hword hop hbehind heven
      have hne : i + 2 ≠ v.numArgs := by
        intro hlast
        have := htwo (by omega)
        rw [hlast] at this
        omega
      rw [positions_redir (by omega) hw hop]
      exact hnext (i + 2) (by omega) hne fun hi2 => htwo (by omega)

end Parity

section Kept
variable {v : ArgVector} {ws : List Word} {i : ℕ}

def behindOperator (ws : List Word) : ℕ → Bool
  | 0 => false
  | i + 1 => ws[i]?.any isRedir

def keptPositions (ws : List Word) : List ℕ :=
  (List.range ws.length).filter fun i => isPlain ws i && !behindOperator ws i

theorem behindOperator_eq (hi : i ≤ ws.length) :
    behindOperator ws i = decide (operatorsBefore ws i ≠ 0) := by
  cases i with
  | zero => simp [behindOperator, operatorsBefore]
  | succ i =>
    have hw : ws[i]? = some ws[i] := List.getElem?_eq_getElem hi
    rw [behindOperator, hw, Option.any_some]
    cases hop : isRedir ws[i] with
    | true => simp [operatorsBefore_redir hw hop]
    | false => simp [operatorsBefore_plain hw hop]

def openedPositions (r : Redirection) : List ℕ :=
  (if r.input then [r.inputRedir + 1] else []) ++
    (if r.output then [r.outputRedir + 1] else []) ++
      if r.appendFlag then [r.appendRedir + 1] else []

theorem behind_opened {op : Word} {flag : Bool} {k : ℕ} (hop : isRedir op = true)
    (h : (flag, k) =
      ((lastIdx (· = op) v.words).isSome, (lastIdx (· = op) v.words).getD 0))
    (hi : i ∈ if flag then [k + 1] else []) : behindOperator v.words i = true := by
  obtain ⟨rfl, rfl⟩ := Prod.mk.inj h
  cases hlast : lastIdx (· = op) v.words with
  | none => simp [hlast] at hi
  | some j =>
    obtain rfl : i = j + 1 := by simpa [hlast] using hi
    obtain ⟨⟨w, hw, hwop⟩, -⟩ := lastIdx_some hlast
    obtain rfl : w = op := by simpa using hwop
    simp [behindOperator, hw, hop]

theorem not_kept_of_opened (h : i ∈ openedPositions v.redirection) : i ∉ keptPositions v.words := by
  have hbehind : behindOperator v.words i = true := by
    rcases List.mem_append.mp h with h | happ
    · rcases List.mem_append.mp h with hin | hout
      · exact behind_opened (by decide) input_eq hin
      · exact behind_opened (by decide) output_eq hout
    · exact behind_opened (by decide) append_eq happ
  simp [keptPositions, hbehind]

structure Keeps (v : ArgVector) (tempargs : Args) : Prop where
  positions : stripPositions v.args SIZE 0 = some (keptPositions v.words)
  entries : ∀ m ≤ (keptPositions v.words).length,
    tempargs m = (keptPositions v.words)[m]?.bind v.args
  unopened : ∀ i ∈ openedPositions v.redirection, i ∉ keptPositions v.words

def TempargsKept (ws : List Word) : Prop :=
  ∀ v : ArgVector, v.words = ws → ∀ (fs : FileSystem) (table : FdTable) (tempargs : Args),
    Bounded table →
      (∃ fds r, redirections fds fs table tempargs v.args v.redirection = some r) ∧
      ∀ fds fs' table' t,
        redirections fds fs table tempargs v.args v.redirection = some (fs', table', t) → Keeps v t

structure SkipsPaired (ws : List Word) : Prop where
  word : ∀ i w, ws[i]? = some w → isRedir w = false →
    operatorsBefore ws i = 0 ∨ operatorsBefore ws i % 2 = 1
  last : operatorsBefore ws ws.length % 2 = 0

theorem kept_of_met (h : SkipsPaired ws) :
    (List.range ws.length).filter (isMet ws) = keptPositions ws := by
  refine List.filter_congr fun i hi => ?_
  have hi : i < ws.length := List.mem_range.mp hi
  have hw : ws[i]? = some ws[i] := List.getElem?_eq_getElem hi
  rw [isMet, isPlain_some hw, behindOperator_eq hi.le]
  cases hop : isRedir ws[i] with
  | true => rfl
  | false =>
    rcases h.word i ws[i] hw hop with hzero | hodd
    · simp [hzero]
    · have hne : operatorsBefore ws i ≠ 0 := by omega
      simp [hodd, hne]

theorem skips_of_met (hkept : (List.range ws.length).filter (isMet ws) = keptPositions ws)
    {w : Word} (hw : ws[i]? = some w) (hop : isRedir w = false) :
    operatorsBefore ws i = 0 ∨ operatorsBefore ws i % 2 = 1 := by
  have hi : i < ws.length := (List.getElem?_eq_some_iff.mp hw).1
  by_contra hno
  obtain ⟨hne, heven⟩ : operatorsBefore ws i ≠ 0 ∧ operatorsBefore ws i % 2 = 0 := by omega
  have hmem : i ∈ (List.range ws.length).filter (isMet ws) := by
    simp [hi, isMet, isPlain_some hw, hop, heven]
  rw [hkept] at hmem
  simp [keptPositions, behindOperator_eq hi.le, hne] at hmem

theorem positions_of_even (hpos : 0 < v.numArgs)
    (hend : operatorsBefore v.words v.words.length % 2 = 0) :
    stripPositions v.args SIZE 0 = some ((List.range v.words.length).filter (isMet v.words)) := by
  rw [v.length_words] at hend ⊢
  have hmet := positions_met hend SIZE 0 (by omega) hpos (by simp [operatorsBefore])
  rwa [Nat.sub_zero, ← List.range_eq_range'] at hmet

theorem stripArgs_isSome (h : (stripPositions v.args SIZE 0).isSome = true) (t : Args) :
    ∃ t', stripArgs v.args SIZE 0 0 t = some t' :=
  Option.isSome_iff_exists.mp ((stripArgs_positions v.args SIZE 0 0 t).1.trans h)

theorem keeps_of_strip (hpos : 0 < v.numArgs) (h : SkipsPaired v.words) {t t' : Args}
    (ht : stripArgs v.args SIZE 0 0 t = some t') : Keeps v t' := by
  have hmet := positions_of_even hpos h.last
  rw [kept_of_met h] at hmet
  obtain ⟨ps, hps, hcopied⟩ := (stripArgs_positions v.args SIZE 0 0 t).2 t' ht
  obtain rfl : keptPositions v.words = ps := Option.some.inj (hmet.symm.trans hps)
  refine ⟨hmet, fun m hm => ?_, fun i => not_kept_of_opened⟩
  rcases Nat.lt_or_eq_of_le hm with hlt | rfl
  · rw [← hcopied.entries m hlt, Nat.zero_add]
  · rw [List.getElem?_length, Option.bind_none, ← hcopied.null, Nat.zero_add]

def freshVector (ws : List Word) (h : ws.length < SIZE) : ArgVector where
  args i := if i = ws.length then none else some (ws[i]?.getD [])
  numArgs := ws.length
  lt_size := h
  word i hi := by rw [if_neg hi.ne]; rfl
  null := if_pos rfl

theorem fresh_words (h : ws.length < SIZE) : (freshVector ws h).words = ws := by
  refine wordsAt_eq ws 0 (fun j hj => ?_) (by omega)
  rw [Nat.zero_add]
  rcases Nat.lt_or_eq_of_le hj with hlt | rfl
  · simp [freshVector, hlt, hlt.ne]
  · simp [freshVector]

theorem fresh_stale (h : ws.length < SIZE) (hi : ws.length < i) :
    (freshVector ws h).args i = some [] := by
  simp [freshVector, hi.ne', hi.le]

theorem paired_of_kept (hlt : ws.length < SIZE) (hany : ws.any isRedir = true)
    (hkept : TempargsKept ws) : SkipsPaired ws := by
  have hwords := fresh_words hlt
  have hlen : ws.length = (freshVector ws hlt).numArgs := rfl
  have hpos : 0 < (freshVector ws hlt).numArgs := by
    refine List.length_pos_iff.mpr ?_
    rintro rfl
    cases hany
  obtain ⟨⟨fds, ⟨fs, table, t⟩, hr⟩, hkeeps⟩ := hkept (freshVector ws hlt) hwords
    ⟨fun _ => none, fun _ => false⟩ (fun _ => none) (fun _ => none) ⟨0, fun _ _ => rfl⟩
  have hpositions := (hkeeps fds fs table t hr).positions
  have hend : operatorsBefore ws ws.length % 2 = 0 := by
    by_contra hodd
    have hover := positions_overrun (fun i hi => fresh_stale hlt hi)
      (by rw [hwords, ← hlen]; omega) SIZE 0 (by omega) hpos (by simp [operatorsBefore])
    rw [hover] at hpositions
    cases hpositions
  rw [positions_of_even hpos (by rwa [hwords]), hwords, Option.some.injEq] at hpositions
  exact ⟨fun i w hw hop => skips_of_met hpositions hw hop, hend⟩

theorem kept_of_paired (hany : ws.any isRedir = true) (h : SkipsPaired ws) : TempargsKept ws := by
  rintro v rfl fs table tempargs htable
  have hredir : v.redirection.any = true := v.redirection_any.trans hany
  have hpos : 0 < v.numArgs := by
    rw [← v.length_words, List.length_pos_iff]
    intro hnil
    rw [hnil] at hany
    cases hany
  obtain ⟨t, ht⟩ := stripArgs_isSome (by rw [positions_of_even hpos h.last]; rfl) tempargs
  obtain ⟨fds, fs', table', t', -, hr⟩ := redirections_of_strip fs htable ht
  exact ⟨⟨fds, _, hr⟩, fun _ _ _ _ hr => keeps_of_strip hpos h (redirections_strip hredir hr)⟩

theorem tempargs_kept_iff (hlt : ws.length < SIZE) (hany : ws.any isRedir = true) :
    TempargsKept ws ↔ SkipsPaired ws :=
  ⟨paired_of_kept hlt hany, kept_of_paired hany⟩

theorem cat_from_kept : TempargsKept [['c', 'a', 't'], less, ['f']] := by
  refine (tempargs_kept_iff (by decide) (by decide)).mpr ⟨fun i w hw hop => ?_, by decide⟩
  rcases i with _ | _ | _ | i
  · exact .inl (by decide)
  · cases hw
    cases hop
  · exact .inr (by decide)
  · cases hw

def twiceOnto : ArgVector := .ofWords [['l', 's'], greater, greater, ['f']] (by decide)

theorem opened_file_kept : stripPositions twiceOnto.args SIZE 0 = some [0, 3] ∧
    openedPositions twiceOnto.redirection = [3] ∧ ¬ TempargsKept twiceOnto.words := by
  refine ⟨by decide, by decide, fun h => ?_⟩
  have hpaired := paired_of_kept (by decide) (by decide) h
  have := hpaired.word 3 ['f'] (by decide) (by decide)
  revert this
  decide

end Kept

end Shell
