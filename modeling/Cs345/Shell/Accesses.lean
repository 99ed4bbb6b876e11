import Cs345.Machine
import Cs345.Shell.Tokens

namespace Shell

section Scan

inductive Access where
  | writeBuf (i : ℕ)
  | readBuf (i : ℕ)
  | writeArgs (i : ℕ)

inductive ScanPc where
  | first
  | firstArg
  | separate
  | advance
  | test
  | isMytime
  | isAmpersand
  | length
  | copy
  | store (w : Option Word)
  | finish
  | done

structure Scan where
  pc : ScanPc
  wbuf : Option Word
  cp : ℕ
  buf : ℕ → Option (Option Word)
  i : ℕ
  j : ℕ
  args : Args
  timeFlag : Bool
  ampershandFlag : Bool

def Scan.entry (s : Scan) : ℕ :=
  match s.pc with
  | .advance => s.cp
  | _ => s.i

def Scan.skip (s : Scan) : Scan := { s with i := s.i + 1, pc := .test }

def Scan.next (s : Scan) (v : Option Word) : Option (Access × Scan) :=
  match s.pc with
  | .first =>
    some (.writeBuf 0, { s with buf := Function.update s.buf 0 (some s.wbuf), pc := .firstArg })
  | .firstArg =>
    some (.writeArgs 0, { s with args := Function.update s.args 0 s.wbuf, pc := .separate })
  | .separate =>
    match strsep s.wbuf with
    | none =>
      some (.writeBuf s.cp, { s with
        buf := Function.update s.buf s.cp (some none), wbuf := none, pc := .test })
    | some (tok, wbuf) =>
      some (.writeBuf s.cp, { s with
        buf := Function.update s.buf s.cp (some (some tok)), wbuf := wbuf, pc := .advance })
  | .advance =>
    some (.readBuf s.cp,
      if v = none then { s with pc := .separate }
      else if SIZE ≤ s.cp + 1 then { s with cp := s.cp + 1, pc := .test }
      else { s with cp := s.cp + 1, pc := .separate })
  | .test => some (.readBuf s.i, { s with pc := if v = none then .finish else .isMytime })
  | .isMytime =>
    v.map fun w => (.readBuf s.i,
      if w = mytime then { s.skip with timeFlag := true } else { s with pc := .isAmpersand })
  | .isAmpersand =>
    v.map fun w => (.readBuf s.i,
      if w = ampersand then { s.skip with ampershandFlag := true } else { s with pc := .length })
  | .length =>
    v.map fun w => (.readBuf s.i, if 0 < w.length then { s with pc := .copy } else s.skip)
  | .copy => some (.readBuf s.i, { s with pc := .store v })
  | .store w =>
    some (.writeArgs s.j, { s.skip with args := Function.update s.args s.j w, j := s.j + 1 })
  | .finish => some (.writeArgs s.j, { s with args := Function.update s.args s.j none, pc := .done })
  | .done => none

-- an entry that was not written holds any value
def Scan.Finds (s : Scan) (v : Option Word) : Prop := ∀ w, s.buf s.entry = some w → v = w

def startScan (line : Word) (args : Args) : Scan :=
  ⟨.first, some line, 0, fun _ => none, 0, 0, args, false, false⟩

def scanMachine (line : Word) (args : Args) : Machine Scan Access where
  init s := s = startScan line args
  step s a t := ∃ v, s.Finds v ∧ s.next v = some (a, t)

end Scan

section Allowed

def Access.Allowed (past : List Access) : Access → Prop
  | .writeBuf i => i < SIZE
  | .readBuf i => i < SIZE ∧ .writeBuf i ∈ past
  | .writeArgs i => i < SIZE

def AllAllowed : List Access → List Access → Prop
  | _, [] => True
  | past, a :: as => a.Allowed past ∧ AllAllowed (past ++ [a]) as

def InBounds (line : Word) (args : Args) : Prop :=
  ∀ tr, (scanMachine line args).Run (startScan line args) tr → AllAllowed [] (tr.map Prod.fst)

end Allowed

section Invariant
variable {line : Word} {args : Args} {past : List Access} {s t : Scan} {a : Access} {v : Option Word}

def stored (line : Word) : List (Option Word) := fillBuf SIZE (some line)

def Written (past : List Access) (buf : ℕ → Option (Option Word)) : Prop :=
  ∀ k, (buf k).isSome = true ↔ .writeBuf k ∈ past

theorem Written.write {buf : ℕ → Option (Option Word)} (h : Written past buf) (c : ℕ)
    (x : Option Word) : Written (past ++ [.writeBuf c]) (Function.update buf c (some x)) := by
  intro k
  by_cases hk : k = c
  · simp [hk]
  · simp [hk, h k]

theorem Written.read {buf : ℕ → Option (Option Word)} (h : Written past buf) (c : ℕ) :
    Written (past ++ [.readBuf c]) buf := by
  intro k
  simp [h k]

theorem Written.arg {buf : ℕ → Option (Option Word)} (h : Written past buf) (c : ℕ) :
    Written (past ++ [.writeArgs c]) buf := by
  intro k
  simp [h k]

structure Scan.Fresh (line : Word) (args : Args) (s : Scan) : Prop where
  counters : s.i = 0 ∧ s.j = 0
  args : s.args = Function.update args 0 (some line)
  flags : s.timeFlag = false ∧ s.ampershandFlag = false

structure Scan.Separating (line : Word) (args : Args) (n : ℕ) (s : Scan) : Prop where
  le : n ≤ SIZE
  rest : (stored line).drop n = fillBuf (SIZE - n) s.wbuf
  fresh : s.Fresh line args

structure Scan.Keeping (line : Word) (args : Args) (s : Scan) : Prop where
  buf : ∀ k, s.buf k = (stored line)[k]?
  rest : keepArgs ((stored line).drop s.i) s.args s.j s.timeFlag s.ampershandFlag =
    parseArguments line args false false
  le : s.j ≤ s.i

def Scan.Sees (line : Word) (s : Scan) (w : Word) : Prop := (stored line)[s.i]? = some (some w)

def Scan.Stands (line : Word) (args : Args) (s : Scan) : Prop :=
  match s.pc with
  | .first => s = startScan line args
  | .firstArg =>
    s = { startScan line args with
      buf := Function.update (fun _ => none) 0 (some (some line)), pc := .firstArg }
  | .separate => s.Separating line args s.cp ∧ s.cp < SIZE ∧
      ∀ k, k ≠ s.cp → s.buf k = ((stored line).take s.cp)[k]?
  | .advance => s.Separating line args (s.cp + 1) ∧
      (∀ k, s.buf k = ((stored line).take (s.cp + 1))[k]?) ∧ ∃ tok, s.buf s.cp = some (some tok)
  | .test => s.Keeping line args
  | .isMytime => s.Keeping line args ∧ ∃ w, s.Sees line w
  | .isAmpersand => s.Keeping line args ∧ ∃ w, s.Sees line w ∧ w ≠ mytime
  | .length => s.Keeping line args ∧ ∃ w, s.Sees line w ∧ w ≠ mytime ∧ w ≠ ampersand
  | .copy => s.Keeping line args ∧ ∃ w, s.Sees line w ∧ isWord w = true
  | .store v => s.Keeping line args ∧ ∃ w, v = some w ∧ s.Sees line w ∧ isWord w = true
  | .finish => s.Keeping line args ∧ (stored line)[s.i]? = some none
  | .done =>
    parseArguments line args false false = some ⟨s.args, s.j, s.timeFlag, s.ampershandFlag⟩

structure Scan.Inv (line : Word) (args : Args) (past : List Access) (s : Scan) : Prop where
  written : Written past s.buf
  stands : s.Stands line args

theorem scan_start : (startScan line args).Inv line args [] :=
  ⟨fun k => by simp [startScan], rfl⟩

theorem Scan.Inv.found (h : s.Inv line args past) {c : ℕ} (hc : s.entry = c) (hv : s.Finds v)
    (hallowed : (Access.readBuf c).Allowed past) : s.buf c = some v := by
  obtain ⟨x, hx⟩ := Option.isSome_iff_exists.mp ((h.written c).mpr hallowed.2)
  rw [hx, hv x (hc ▸ hx)]

theorem drop_stored {i : ℕ} {x : Option Word} (h : (stored line)[i]? = some x) :
    (stored line).drop i = x :: (stored line).drop (i + 1) := by
  obtain ⟨hi, rfl⟩ := List.getElem?_eq_some_iff.mp h
  exact List.drop_eq_getElem_cons hi

theorem Scan.Keeping.skip {w : Word} {args' : Args} {j : ℕ} {timeFlag ampershandFlag : Bool}
    (h : s.Keeping line args) (hsees : s.Sees line w) (hj : j ≤ s.i + 1)
    (hkeep : ∀ more, keepArgs (some w :: more) s.args s.j s.timeFlag s.ampershandFlag =
      keepArgs more args' j timeFlag ampershandFlag) :
    { s.skip with args := args', j := j, timeFlag := timeFlag,
                  ampershandFlag := ampershandFlag : Scan }.Keeping line args := by
  refine ⟨h.buf, ?_, hj⟩
  rw [← h.rest, drop_stored hsees, hkeep]
  rfl

theorem Scan.Fresh.keeping {n : ℕ} (h : s.Fresh line args)
    (hbuf : ∀ k, s.buf k = ((stored line).take n)[k]?) (hlen : (stored line).length ≤ n) :
    s.Keeping line args := by
  obtain ⟨⟨hi, hj⟩, hargs, htime, hamp⟩ := h
  rw [List.take_of_length_le hlen] at hbuf
  refine ⟨hbuf, ?_, by omega⟩
  rw [hi, hj, hargs, htime, hamp]
  rfl

theorem take_written {buf : ℕ → Option (Option Word)} {n : ℕ} {x : Option Word}
    (hbuf : ∀ k, k ≠ n → buf k = ((stored line).take n)[k]?) (hx : (stored line)[n]? = some x)
    (k : ℕ) : Function.update buf n (some x) k = ((stored line).take (n + 1))[k]? := by
  rw [List.getElem?_take]
  by_cases hk : k = n
  · rw [hk, Function.update_self, if_pos (by omega), hx]
  · have hlt : k < n ↔ k < n + 1 := by omega
    rw [Function.update_of_ne hk, hbuf k hk, List.getElem?_take]
    simp only [hlt]

theorem separate_step (h : s.Inv line args past) (hpc : s.pc = .separate)
    (hstep : s.next v = some (a, t)) : t.Inv line args (past ++ [a]) := by
  have hstands := h.stands
  simp only [Scan.Stands, hpc] at hstands
  obtain ⟨⟨-, hrest, hfresh⟩, hcp, hbuf⟩ := hstands
  have hn : SIZE - s.cp = SIZE - (s.cp + 1) + 1 := by omega
  have hentry : (stored line)[s.cp]? = (fillBuf (SIZE - s.cp) s.wbuf)[0]? := by
    rw [← hrest, List.getElem?_drop, Nat.add_zero]
  simp only [Scan.next, hpc] at hstep
  cases hs : strsep s.wbuf with
  | none =>
    have hnull : fillBuf (SIZE - s.cp) s.wbuf = [none] := by rw [hn, fillBuf, hs]
    rw [hnull] at hrest hentry
    rw [hs] at hstep
    cases hstep
    have hlen : (stored line).length ≤ s.cp + 1 := by
      have := congrArg List.length hrest
      simp only [List.length_drop, List.length_singleton] at this
      omega
    exact ⟨h.written.write s.cp none, Scan.Fresh.keeping ⟨hfresh.counters, hfresh.args, hfresh.flags⟩
      (take_written hbuf hentry) hlen⟩
  | some r =>
    obtain ⟨tok, wbuf⟩ := r
    have hcons : fillBuf (SIZE - s.cp) s.wbuf = some tok :: fillBuf (SIZE - (s.cp + 1)) wbuf := by
      rw [hn, fillBuf, hs]
    rw [hcons] at hrest hentry
    rw [hs] at hstep
    cases hstep
    refine ⟨h.written.write s.cp _, ⟨hcp, ?_, hfresh.counters, hfresh.args, hfresh.flags⟩,
      take_written hbuf hentry, tok, Function.update_self _ _ _⟩
    rw [← List.drop_drop, hrest]
    rfl

theorem advance_step (h : s.Inv line args past) (hpc : s.pc = .advance) (hv : s.Finds v)
    (hstep : s.next v = some (a, t)) : t.Inv line args (past ++ [a]) := by
  have hstands := h.stands
  simp only [Scan.Stands, hpc] at hstands
  obtain ⟨⟨hle, hrest, hfresh⟩, hbuf, tok, htok⟩ := hstands
  have hentry : s.entry = s.cp := by simp only [Scan.entry, hpc]
  obtain rfl : v = some tok := hv _ (hentry ▸ htok)
  simp only [Scan.next, hpc, if_neg (Option.some_ne_none tok)] at hstep
  cases hstep
  refine ⟨?_, ?_⟩
  · split_ifs
    · exact h.written.read s.cp
    · exact h.written.read s.cp
  · split_ifs with hfull
    · have hlen : (stored line).length ≤ s.cp + 1 :=
        (length_fillBuf SIZE (some line)).trans hfull
      exact Scan.Fresh.keeping ⟨hfresh.counters, hfresh.args, hfresh.flags⟩ hbuf hlen
    · exact ⟨⟨hle, hrest, hfresh.counters, hfresh.args, hfresh.flags⟩, by simpa using hfull,
        fun k _ => hbuf k⟩

theorem Scan.Keeping.next_word {pc : ScanPc} (h : s.Keeping line args) :
    { s with pc := pc : Scan }.Keeping line args := ⟨h.buf, h.rest, h.le⟩

theorem Scan.Inv.sees (h : s.Inv line args past) (hk : s.Keeping line args) (hc : s.entry = s.i)
    (hv : s.Finds v) (hallowed : (Access.readBuf s.i).Allowed past) :
    (stored line)[s.i]? = some v :=
  (hk.buf s.i).symm.trans (h.found hc hv hallowed)

theorem test_step (h : s.Inv line args past) (hpc : s.pc = .test) (hv : s.Finds v)
    (hstep : s.next v = some (a, t)) (hallowed : a.Allowed past) :
    t.Inv line args (past ++ [a]) := by
  have hstands := h.stands
  simp only [Scan.Stands, hpc] at hstands
  simp only [Scan.next, hpc] at hstep
  cases hstep
  have hsees := h.sees hstands (by simp only [Scan.entry, hpc]) hv hallowed
  refine ⟨h.written.read s.i, ?_⟩
  cases v with
  | none => exact ⟨hstands.next_word, hsees⟩
  | some w => exact ⟨hstands.next_word, w, hsees⟩

theorem mytime_step (h : s.Inv line args past) (hpc : s.pc = .isMytime) (hv : s.Finds v)
    (hstep : s.next v = some (a, t)) (hallowed : a.Allowed past) :
    t.Inv line args (past ++ [a]) := by
  have hstands := h.stands
  simp only [Scan.Stands, hpc] at hstands
  obtain ⟨hk, -⟩ := hstands
  simp only [Scan.next, hpc] at hstep
  obtain ⟨w, rfl, hstep⟩ := Option.map_eq_some_iff.mp hstep
  cases hstep
  have hsees := h.sees hk (by simp only [Scan.entry, hpc]) hv hallowed
  split_ifs with hw
  · have hle : s.j ≤ s.i + 1 := hk.le.trans (Nat.le_succ _)
    exact ⟨h.written.read s.i, hk.skip hsees hle fun more => if_pos hw⟩
  · exact ⟨h.written.read s.i, hk.next_word, w, hsees, hw⟩

theorem ampersand_step (h : s.Inv line args past) (hpc : s.pc = .isAmpersand) (hv : s.Finds v)
    (hstep : s.next v = some (a, t)) (hallowed : a.Allowed past) :
    t.Inv line args (past ++ [a]) := by
  have hstands := h.stands
  simp only [Scan.Stands, hpc] at hstands
  obtain ⟨hk, u, hu, htime⟩ := hstands
  simp only [Scan.next, hpc] at hstep
  obtain ⟨w, rfl, hstep⟩ := Option.map_eq_some_iff.mp hstep
  cases hstep
  have hsees := h.sees hk (by simp only [Scan.entry, hpc]) hv hallowed
  obtain rfl : u = w := Option.some.inj (Option.some.inj (hu.symm.trans hsees))
  split_ifs with hw
  · have hle : s.j ≤ s.i + 1 := hk.le.trans (Nat.le_succ _)
    exact ⟨h.written.read s.i, hk.skip hsees hle fun more => (if_neg htime).trans (if_pos hw)⟩
  · exact ⟨h.written.read s.i, hk.next_word, u, hsees, htime, hw⟩

theorem length_step (h : s.Inv line args past) (hpc : s.pc = .length) (hv : s.Finds v)
    (hstep : s.next v = some (a, t)) (hallowed : a.Allowed past) :
    t.Inv line args (past ++ [a]) := by
  have hstands := h.stands
  simp only [Scan.Stands, hpc] at hstands
  obtain ⟨hk, u, hu, htime, hamp⟩ := hstands
  simp only [Scan.next, hpc] at hstep
  obtain ⟨w, rfl, hstep⟩ := Option.map_eq_some_iff.mp hstep
  cases hstep
  have hsees := h.sees hk (by simp only [Scan.entry, hpc]) hv hallowed
  obtain rfl : u = w := Option.some.inj (Option.some.inj (hu.symm.trans hsees))
  split_ifs with hw
  · refine ⟨h.written.read s.i, hk.next_word, u, hsees, ?_⟩
    simp [isWord, htime, hamp, List.length_pos_iff.mp hw]
  · have hle : s.j ≤ s.i + 1 := hk.le.trans (Nat.le_succ _)
    exact ⟨h.written.read s.i, hk.skip hsees hle fun more =>
      (if_neg htime).trans ((if_neg hamp).trans (if_neg hw))⟩

theorem copy_step (h : s.Inv line args past) (hpc : s.pc = .copy) (hv : s.Finds v)
    (hstep : s.next v = some (a, t)) (hallowed : a.Allowed past) :
    t.Inv line args (past ++ [a]) := by
  have hstands := h.stands
  simp only [Scan.Stands, hpc] at hstands
  obtain ⟨hk, u, hu, hword⟩ := hstands
  simp only [Scan.next, hpc] at hstep
  cases hstep
  have hsees := h.sees hk (by simp only [Scan.entry, hpc]) hv hallowed
  have hvu : v = some u := Option.some.inj (hsees.symm.trans hu)
  exact ⟨h.written.read s.i, hk.next_word, u, hvu, hu, hword⟩

theorem store_step {w : Option Word} (h : s.Inv line args past) (hpc : s.pc = .store w)
    (hstep : s.next v = some (a, t)) : t.Inv line args (past ++ [a]) := by
  have hstands := h.stands
  simp only [Scan.Stands, hpc] at hstands
  obtain ⟨hk, u, rfl, hsees, hword⟩ := hstands
  simp only [Scan.next, hpc] at hstep
  cases hstep
  obtain ⟨⟨htime, hamp⟩, hne⟩ : (¬ u = mytime ∧ ¬ u = ampersand) ∧ ¬ u = [] := by
    simpa [isWord] using hword
  have hlen : 0 < u.length := List.length_pos_iff.mpr hne
  exact ⟨h.written.arg s.j, hk.skip hsees (Nat.succ_le_succ hk.le) fun more =>
    (if_neg htime).trans ((if_neg hamp).trans (if_pos hlen))⟩

theorem finish_step (h : s.Inv line args past) (hpc : s.pc = .finish)
    (hstep : s.next v = some (a, t)) : t.Inv line args (past ++ [a]) := by
  have hstands := h.stands
  simp only [Scan.Stands, hpc] at hstands
  obtain ⟨hk, hnull⟩ := hstands
  simp only [Scan.next, hpc] at hstep
  cases hstep
  have hrest := hk.rest
  rw [drop_stored hnull] at hrest
  exact ⟨h.written.arg s.j, hrest.symm⟩

theorem scan_step (h : s.Inv line args past) (hv : s.Finds v) (hstep : s.next v = some (a, t))
    (hallowed : a.Allowed past) : t.Inv line args (past ++ [a]) := by
  cases hpc : s.pc with
  | first =>
    have hstands := h.stands
    simp only [Scan.Stands, hpc] at hstands
    subst hstands
    cases hstep
    exact ⟨h.written.write 0 _, rfl⟩
  | firstArg =>
    have hstands := h.stands
    simp only [Scan.Stands, hpc] at hstands
    have hwritten := h.written
    subst hstands
    cases hstep
    have hsize : 0 < SIZE := by decide
    have hbuf (k : ℕ) (hk : k ≠ 0) :
        Function.update (fun _ : ℕ => none) 0 (some (some line)) k = ((stored line).take 0)[k]? := by
      rw [Function.update_of_ne hk, List.take_zero]
      rfl
    exact ⟨hwritten.arg 0, ⟨Nat.zero_le _, rfl, ⟨rfl, rfl⟩, rfl, rfl, rfl⟩, hsize, hbuf⟩
  | separate => exact separate_step h hpc hstep
  | advance => exact advance_step h hpc hv hstep
  | test => exact test_step h hpc hv hstep hallowed
  | isMytime => exact mytime_step h hpc hv hstep hallowed
  | isAmpersand => exact ampersand_step h hpc hv hstep hallowed
  | length => exact length_step h hpc hv hstep hallowed
  | copy => exact copy_step h hpc hv hstep hallowed
  | store w => exact store_step h hpc hstep
  | finish => exact finish_step h hpc hstep
  | done =>
    simp only [Scan.next, hpc] at hstep
    cases hstep

end Invariant

section Bounds
variable {line : Word} {args : Args} {past : List Access} {s t : Scan} {a : Access} {v : Option Word}

theorem lt_of_entry {i : ℕ} {x : Option Word} (h : (stored line)[i]? = some x) : i < SIZE :=
  (List.getElem?_eq_some_iff.mp h).1.trans_le (length_fillBuf SIZE (some line))

theorem Scan.Inv.readable (h : s.Inv line args past) {i : ℕ} {x : Option Word} (hi : i < SIZE)
    (hx : s.buf i = some x) : (Access.readBuf i).Allowed past :=
  ⟨hi, (h.written i).mp (by simp [hx])⟩

theorem Scan.Inv.readable_entry (h : s.Inv line args past) (hk : s.Keeping line args)
    {x : Option Word} (hx : (stored line)[s.i]? = some x) : (Access.readBuf s.i).Allowed past :=
  h.readable (lt_of_entry hx) ((hk.buf s.i).trans hx)

def ScanPc.inWord : ScanPc → Bool
  | .isMytime => true
  | .isAmpersand => true
  | .length => true
  | .copy => true
  | .store _ => true
  | .finish => true
  | _ => false

theorem Scan.Inv.within (h : s.Inv line args past) (hin : s.pc.inWord = true) :
    s.Keeping line args ∧ ∃ x, (stored line)[s.i]? = some x := by
  have hstands := h.stands
  cases hpc : s.pc with
  | isMytime =>
    simp only [Scan.Stands, hpc] at hstands
    exact ⟨hstands.1, _, hstands.2.choose_spec⟩
  | isAmpersand =>
    simp only [Scan.Stands, hpc] at hstands
    exact ⟨hstands.1, _, hstands.2.choose_spec.1⟩
  | length =>
    simp only [Scan.Stands, hpc] at hstands
    exact ⟨hstands.1, _, hstands.2.choose_spec.1⟩
  | copy =>
    simp only [Scan.Stands, hpc] at hstands
    exact ⟨hstands.1, _, hstands.2.choose_spec.1⟩
  | store w =>
    simp only [Scan.Stands, hpc] at hstands
    exact ⟨hstands.1, _, hstands.2.choose_spec.2.1⟩
  | finish =>
    simp only [Scan.Stands, hpc] at hstands
    exact ⟨hstands.1, _, hstands.2⟩
  | _ =>
    rw [hpc] at hin
    cases hin

def Scan.access (s : Scan) : Access :=
  match s.pc with
  | .first => .writeBuf 0
  | .firstArg => .writeArgs 0
  | .separate => .writeBuf s.cp
  | .advance => .readBuf s.cp
  | .store _ => .writeArgs s.j
  | .finish => .writeArgs s.j
  | _ => .readBuf s.i

theorem next_access (hstep : s.next v = some (a, t)) : a = s.access := by
  have hword (w : Option Word) (f : Word → Scan)
      (h : w.map (fun w => (Access.readBuf s.i, f w)) = some (a, t)) : a = .readBuf s.i := by
    obtain ⟨w, -, h⟩ := Option.map_eq_some_iff.mp h
    exact (congrArg Prod.fst h).symm
  cases hpc : s.pc with
  | isMytime =>
    simp only [Scan.next, Scan.access, hpc] at hstep ⊢
    exact hword _ _ hstep
  | isAmpersand =>
    simp only [Scan.next, Scan.access, hpc] at hstep ⊢
    exact hword _ _ hstep
  | length =>
    simp only [Scan.next, Scan.access, hpc] at hstep ⊢
    exact hword _ _ hstep
  | separate =>
    simp only [Scan.next, Scan.access, hpc] at hstep ⊢
    split at hstep
    · cases hstep
      rfl
    · cases hstep
      rfl
  | done =>
    simp only [Scan.next, hpc] at hstep
    cases hstep
  | _ =>
    simp only [Scan.next, Scan.access, hpc] at hstep ⊢
    cases hstep
    rfl

theorem allowed_of_parse (h : s.Inv line args past)
    (hp : (parseArguments line args false false).isSome = true)
    (hstep : s.next v = some (a, t)) : a.Allowed past := by
  have hsize : 0 < SIZE := by decide
  have hstands := h.stands
  obtain rfl := next_access hstep
  cases hpc : s.pc with
  | first =>
    simp only [Scan.access, hpc]
    exact hsize
  | firstArg =>
    simp only [Scan.access, hpc]
    exact hsize
  | separate =>
    simp only [Scan.Stands, hpc] at hstands
    simp only [Scan.access, hpc]
    exact hstands.2.1
  | advance =>
    simp only [Scan.Stands, hpc] at hstands
    obtain ⟨hsep, -, tok, htok⟩ := hstands
    simp only [Scan.access, hpc]
    exact h.readable hsep.le htok
  | test =>
    simp only [Scan.Stands, hpc] at hstands
    simp only [Scan.access, hpc]
    obtain ⟨p, hp⟩ := Option.isSome_iff_exists.mp hp
    cases hx : (stored line)[s.i]? with
    | some x => exact h.readable_entry hstands hx
    | none =>
      have hrest := hstands.rest
      rw [List.drop_eq_nil_of_le (List.getElem?_eq_none_iff.mp hx), hp] at hrest
      cases hrest
  | done =>
    simp only [Scan.next, hpc] at hstep
    cases hstep
  | store w =>
    obtain ⟨hk, x, hx⟩ := h.within (by rw [hpc]; rfl)
    simp only [Scan.access, hpc]
    exact hk.le.trans_lt (lt_of_entry hx)
  | finish =>
    obtain ⟨hk, x, hx⟩ := h.within (by rw [hpc]; rfl)
    simp only [Scan.access, hpc]
    exact hk.le.trans_lt (lt_of_entry hx)
  | _ =>
    obtain ⟨hk, x, hx⟩ := h.within (by rw [hpc]; rfl)
    simp only [Scan.access, hpc]
    exact h.readable_entry hk hx

def Scan.left (s : Scan) : ℕ :=
  match s.pc with
  | .first => 8 * SIZE + 11
  | .firstArg => 8 * SIZE + 10
  | .separate => 2 * (SIZE - s.cp) + 6 * SIZE + 9
  | .advance => 2 * (SIZE - s.cp) + 6 * SIZE + 8
  | .test => 6 * (SIZE - s.i) + 7
  | .isMytime => 6 * (SIZE - s.i) + 6
  | .isAmpersand => 6 * (SIZE - s.i) + 5
  | .length => 6 * (SIZE - s.i) + 4
  | .copy => 6 * (SIZE - s.i) + 3
  | .store _ => 6 * (SIZE - s.i) + 2
  | .finish => 1
  | .done => 0

theorem left_lt_inWord (hin : s.pc.inWord = true) (hi : s.i < SIZE)
    (hstep : s.next v = some (a, t)) : t.left < s.left := by
  cases hpc : s.pc with
  | isMytime =>
    simp only [Scan.next, hpc] at hstep
    obtain ⟨w, -, hstep⟩ := Option.map_eq_some_iff.mp hstep
    cases hstep
    split_ifs
    · simp only [Scan.left, Scan.skip, hpc]
      omega
    · simp only [Scan.left, hpc]
      omega
  | isAmpersand =>
    simp only [Scan.next, hpc] at hstep
    obtain ⟨w, -, hstep⟩ := Option.map_eq_some_iff.mp hstep
    cases hstep
    split_ifs
    · simp only [Scan.left, Scan.skip, hpc]
      omega
    · simp only [Scan.left, hpc]
      omega
  | length =>
    simp only [Scan.next, hpc] at hstep
    obtain ⟨w, -, hstep⟩ := Option.map_eq_some_iff.mp hstep
    cases hstep
    split_ifs
    · simp only [Scan.left, hpc]
      omega
    · simp only [Scan.left, Scan.skip, hpc]
      omega
  | copy =>
    simp only [Scan.next, hpc] at hstep
    cases hstep
    simp only [Scan.left, hpc]
    omega
  | store w =>
    simp only [Scan.next, hpc] at hstep
    cases hstep
    simp only [Scan.left, Scan.skip, hpc]
    omega
  | finish =>
    simp only [Scan.next, hpc] at hstep
    cases hstep
    simp only [Scan.left, hpc]
    omega
  | _ =>
    rw [hpc] at hin
    cases hin

theorem left_lt (h : s.Inv line args past) (hv : s.Finds v) (hstep : s.next v = some (a, t)) :
    t.left < s.left := by
  have hstands := h.stands
  have hword (hin : s.pc.inWord = true) : t.left < s.left := by
    obtain ⟨-, x, hx⟩ := h.within hin
    exact left_lt_inWord hin (lt_of_entry hx) hstep
  cases hpc : s.pc with
  | first =>
    simp only [Scan.next, hpc] at hstep
    cases hstep
    simp only [Scan.left, hpc]
    omega
  | firstArg =>
    simp only [Scan.next, hpc] at hstep
    cases hstep
    simp only [Scan.left, hpc]
    omega
  | separate =>
    simp only [Scan.next, hpc] at hstep
    split at hstep
    · cases hstep
      simp only [Scan.left, hpc]
      omega
    · cases hstep
      simp only [Scan.left, hpc]
      omega
  | advance =>
    simp only [Scan.Stands, hpc] at hstands
    obtain ⟨⟨hle, -, -⟩, -, tok, htok⟩ := hstands
    have hentry : s.entry = s.cp := by simp only [Scan.entry, hpc]
    obtain rfl : v = some tok := hv _ (hentry ▸ htok)
    simp only [Scan.next, hpc, if_neg (Option.some_ne_none tok)] at hstep
    cases hstep
    split_ifs
    · simp only [Scan.left, hpc]
      omega
    · simp only [Scan.left, hpc]
      omega
  | test =>
    simp only [Scan.next, hpc] at hstep
    cases hstep
    cases v <;> simp [Scan.left, hpc]
  | done =>
    simp only [Scan.next, hpc] at hstep
    cases hstep
  | _ => exact hword (by rw [hpc]; rfl)

theorem exists_next (h : s.Inv line args past) (hdone : s.pc ≠ .done) :
    ∃ v a t, s.Finds v ∧ s.next v = some (a, t) := by
  have hstands := h.stands
  have hfinds : s.Finds ((s.buf s.entry).getD none) := fun w hw => by rw [hw]; rfl
  have hword (hk : s.Keeping line args) (hc : s.entry = s.i) {w : Word} (hw : s.Sees line w) :
      s.Finds (some w) := by
    intro x hx
    rw [hc, hk.buf] at hx
    exact Option.some.inj (hw.symm.trans hx)
  cases hpc : s.pc with
  | isMytime =>
    simp only [Scan.Stands, hpc] at hstands
    obtain ⟨hk, w, hw⟩ := hstands
    exact ⟨some w, _, _, hword hk (by simp only [Scan.entry, hpc]) hw,
      by simp only [Scan.next, hpc, Option.map_some]; rfl⟩
  | isAmpersand =>
    simp only [Scan.Stands, hpc] at hstands
    obtain ⟨hk, w, hw, -⟩ := hstands
    exact ⟨some w, _, _, hword hk (by simp only [Scan.entry, hpc]) hw,
      by simp only [Scan.next, hpc, Option.map_some]; rfl⟩
  | length =>
    simp only [Scan.Stands, hpc] at hstands
    obtain ⟨hk, w, hw, -⟩ := hstands
    exact ⟨some w, _, _, hword hk (by simp only [Scan.entry, hpc]) hw,
      by simp only [Scan.next, hpc, Option.map_some]; rfl⟩
  | separate =>
    cases hs : strsep s.wbuf with
    | none => exact ⟨_, _, _, hfinds, by simp only [Scan.next, hpc, hs]; rfl⟩
    | some r => exact ⟨_, _, _, hfinds, by simp only [Scan.next, hpc, hs]; rfl⟩
  | done => exact absurd hpc hdone
  | _ => exact ⟨_, _, _, hfinds, by simp only [Scan.next, hpc]; rfl⟩

theorem Scan.Inv.result (h : s.Inv line args past) (hpc : s.pc = .done) :
    parseArguments line args false false = some ⟨s.args, s.j, s.timeFlag, s.ampershandFlag⟩ := by
  have hstands := h.stands
  simpa only [Scan.Stands, hpc] using hstands

theorem violated_of_none (hp : parseArguments line args false false = none) :
    ∀ s past, s.Inv line args past →
      ∃ tr, (scanMachine line args).Run s tr ∧ ¬ AllAllowed past (tr.map Prod.fst) := by
  intro s
  induction hn : s.left using Nat.strongRecOn generalizing s with
  | _ n ih =>
    intro past h
    have hdone : s.pc ≠ .done := fun hpc => by cases hp.symm.trans (h.result hpc)
    obtain ⟨v, a, t, hv, hstep⟩ := exists_next h hdone
    by_cases hallowed : a.Allowed past
    · have hlt : t.left < n := hn ▸ left_lt h hv hstep
      obtain ⟨tr, hrun, hno⟩ := ih t.left hlt t rfl _ (scan_step h hv hstep hallowed)
      exact ⟨(a, t) :: tr, .cons ⟨v, hv, hstep⟩ hrun, fun hall => hno hall.2⟩
    · exact ⟨[(a, t)], .cons ⟨v, hv, hstep⟩ (.nil t), fun hall => hallowed hall.1⟩

theorem allAllowed_of_parse (hp : (parseArguments line args false false).isSome = true)
    {tr : List (Access × Scan)} (hrun : (scanMachine line args).Run s tr) :
    ∀ past, s.Inv line args past → AllAllowed past (tr.map Prod.fst) := by
  induction hrun with
  | nil s => exact fun _ _ => trivial
  | cons hstep _ ih =>
    intro past h
    obtain ⟨v, hv, hstep⟩ := hstep
    have hallowed := allowed_of_parse h hp hstep
    exact ⟨hallowed, ih _ (scan_step h hv hstep hallowed)⟩

theorem inBounds_iff_parses :
    InBounds line args ↔ (parseArguments line args false false).isSome = true := by
  constructor
  · intro hin
    by_contra hnone
    have hstart : (startScan line args).Inv line args [] := scan_start
    obtain ⟨tr, hrun, hno⟩ :=
      violated_of_none (Option.not_isSome_iff_eq_none.mp hnone) _ _ hstart
    exact hno (hin tr hrun)
  · intro hp tr hrun
    exact allAllowed_of_parse hp hrun [] scan_start

theorem scan_reachable (hp : (parseArguments line args false false).isSome = true)
    (hs : (scanMachine line args).Reachable s) : ∃ past, s.Inv line args past := by
  refine hs.invariant (I := fun s => ∃ past, s.Inv line args past) ?_ ?_
  · rintro s rfl
    exact ⟨[], scan_start⟩
  · rintro s a t - ⟨past, h⟩ ⟨v, hv, hstep⟩
    exact ⟨past ++ [a], scan_step h hv hstep (allowed_of_parse h hp hstep)⟩

def Scan.parsed (s : Scan) : Parsed := ⟨s.args, s.j, s.timeFlag, s.ampershandFlag⟩

section Result
variable (hp : (parseArguments line args false false).isSome = true)
include hp

theorem left_falls (s : Scan) (a : Access) (t : Scan) (hs : (scanMachine line args).Reachable s)
    (hstep : (scanMachine line args).step s a t) : t.left < s.left := by
  obtain ⟨past, h⟩ := scan_reachable hp hs
  obtain ⟨v, hv, hstep⟩ := hstep
  exact left_lt h hv hstep

theorem scan_stuck_iff (hs : (scanMachine line args).Reachable s) :
    (scanMachine line args).Stuck s ↔ s.pc = .done := by
  obtain ⟨past, h⟩ := scan_reachable hp hs
  constructor
  · intro hstuck
    by_contra hdone
    obtain ⟨v, a, t, hv, hstep⟩ := exists_next h hdone
    exact hstuck a ⟨t, v, hv, hstep⟩
  · rintro hpc a ⟨t, v, -, hstep⟩
    simp only [Scan.next, hpc] at hstep
    cases hstep

theorem scan_result (hs : (scanMachine line args).Reachable s) (hpc : s.pc = .done) :
    parseArguments line args false false = some s.parsed := by
  obtain ⟨past, h⟩ := scan_reachable hp hs
  exact h.result hpc

theorem scan_completes : ∃ s, (scanMachine line args).Reachable s ∧ s.pc = .done := by
  obtain ⟨s, hs, hstuck⟩ := Machine.Reachable.stuck_exists (.init rfl) Scan.left (left_falls hp)
  exact ⟨s, hs, (scan_stuck_iff hp hs).mp hstuck⟩

end Result

theorem scan_refines (hdelims : delims line + 1 < SIZE) (args : Args) :
    ∃ p, parseArguments line args false false = some p ∧
      (∀ tr, (scanMachine line args).Run (startScan line args) tr → tr.length ≤ 8 * SIZE + 11) ∧
      (∃ s, (scanMachine line args).Reachable s ∧ s.pc = .done) ∧
      ∀ s, (scanMachine line args).Reachable s →
        ((scanMachine line args).Stuck s ↔ s.pc = .done) ∧ (s.pc = .done → s.parsed = p) := by
  have hp : (parseArguments line args false false).isSome = true := parses_iff.mpr hdelims
  obtain ⟨p, hparse⟩ := Option.isSome_iff_exists.mp hp
  refine ⟨p, hparse, fun tr hrun => hrun.length_le (.init rfl) (left_falls hp),
    scan_completes hp, fun s hs => ⟨scan_stuck_iff hp hs, fun hpc => ?_⟩⟩
  exact Option.some.inj ((scan_result hp hs hpc).symm.trans hparse)

theorem timed_line_scanned : ∃ p, parseArguments timedLine (fun _ => none) false false = some p ∧
    ∃ s, (scanMachine timedLine fun _ => none).Reachable s ∧ s.pc = .done ∧ s.parsed = p := by
  have hdelims : delims timedLine + 1 < SIZE := by decide
  obtain ⟨p, hp, -, ⟨s, hs, hpc⟩, hall⟩ := scan_refines hdelims fun _ => none
  exact ⟨p, hp, s, hs, hpc, (hall s hs).2 hpc⟩

theorem in_bounds_iff (hlen : line.length < SIZE) (args : Args) :
    InBounds line args ↔ ¬ (line.length = SIZE - 1 ∧ ∀ c ∈ line, c ∈ DELIMS) := by
  have hle : delims line ≤ line.length := List.countP_le_length
  have hall : delims line = line.length ↔ ∀ c ∈ line, c ∈ DELIMS := by
    simp [delims, List.countP_eq_length, isDelim]
  rw [inBounds_iff_parses, parses_iff, ← hall]
  omega

theorem timed_line_in_bounds : InBounds timedLine (fun _ => none) :=
  (in_bounds_iff (by decide) _).mpr fun h => absurd h.1 (by decide)

def blanks : Word := List.replicate (SIZE - 1) ' '

theorem blanks_out_of_bounds : blanks.length = 1023 ∧ ¬ InBounds blanks (fun _ => none) := by
  have hdelims : delims blanks = 1023 := List.countP_replicate.trans (if_pos rfl)
  refine ⟨List.length_replicate, fun h => ?_⟩
  have hlt := parses_iff.mp (inBounds_iff_parses.mp h)
  rw [hdelims] at hlt
  exact absurd hlt (by decide)

end Bounds

end Shell
