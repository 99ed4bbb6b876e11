import Cs345.Shell.Wiring
import Mathlib.Algebra.BigOperators.Group.Finset.Basic

namespace Shell

structure Reader where
  eager : ℕ → ℕ → Bool
  got : ℕ
  eof : Bool
  left : ℕ

namespace Reader

def writes (r : Reader) : Bool := 0 < r.left && (r.eof || r.eager r.got r.left)

inductive Act : Reader → Io → Reader → Prop
  | readByte {r : Reader} : r.writes = false → r.eof = false →
      Act r .readByte { r with got := r.got + 1 }
  | readEof {r : Reader} : r.writes = false → r.eof = false → Act r .readEof { r with eof := true }
  | writeByte {r : Reader} : r.writes = true → Act r .writeByte { r with left := r.left - 1 }
  | exit {r : Reader} : r.writes = false → r.eof = true → Act r .exit r

theorem left_pos {r : Reader} (h : r.writes = true) : 0 < r.left := by
  simp only [writes, Bool.and_eq_true, decide_eq_true_eq] at h
  exact h.1

theorem left_zero {r : Reader} (h : r.writes = false) (he : r.eof = true) : r.left = 0 := by
  simpa [writes, he] using h

end Reader

def readers (capacity : ℕ) (eager : ℕ → ℕ → ℕ → Bool) (out : ℕ → ℕ) : World Reader where
  start := fun j => ⟨eager j, 0, false, out j⟩
  io := Reader.Act
  redirExec := true
  capacity := capacity

variable {capacity : ℕ} {eager : ℕ → ℕ → ℕ → Bool} {out : ℕ → ℕ} {v : ArgVector}
  {s s' : State Reader}

section Bytes

def Produced (capacity out held : ℕ) : StagePc Reader → Prop
  | .running r => held + r.left = out ∧ held ≤ capacity
  | .exited => out ≤ capacity
  | _ => held = 0

def BytesInv (capacity : ℕ) (out : ℕ → ℕ) (v : ArgVector) (s : State Reader) : Prop :=
  ∀ j < v.pipeCounter, Produced capacity (out j) (s.channels.held j) (s.stage j).pc

section Transfer
variable {Writers : ℕ → Prop} {t : FdTable} {c c' : Channels} {a : Io} {j n : ℕ} {r r' : Reader}

theorem source_eq_readEnd {p : ℕ} (h : source j = .readEnd p) : j = p + 1 := by
  cases j with
  | zero => cases h
  | succ j => cases h; rfl

theorem Transfer.above (h : Transfer capacity Writers t c a c') (h0 : t 0 = some (source j))
    (h1 : t 1 = some (.writeEnd j)) {l : ℕ} (hl : j < l) : c'.held l = c.held l := by
  cases h with
  | @readPipe p hp _ =>
    have := source_eq_readEnd (Option.some.inj (h0.symm.trans hp))
    exact Function.update_of_ne (by omega) _ _
  | @writePipe p hp _ =>
    cases h1.symm.trans hp
    exact Function.update_of_ne (Nat.ne_of_gt hl) _ _
  | _ => rfl

theorem produced_run (hact : Reader.Act r a r') (h : Transfer capacity Writers t c a c')
    (h0 : t 0 = some (source j)) (h1 : t 1 = some (.writeEnd j))
    (hp : Produced capacity n (c.held j) (.running r)) :
    Produced capacity n (c'.held j) (if a = .exit then .exited else .running r') := by
  obtain ⟨hsum, hle⟩ := hp
  cases hact with
  | readByte _ _ =>
    cases h with
    | @readPipe p hp _ =>
      have := source_eq_readEnd (Option.some.inj (h0.symm.trans hp))
      have hj : j ≠ p := by omega
      simpa [Produced, Function.update_of_ne hj] using ⟨hsum, hle⟩
    | readOther _ _ _ => exact ⟨hsum, hle⟩
  | readEof _ _ => cases h <;> exact ⟨hsum, hle⟩
  | writeByte hw =>
    have hpos := Reader.left_pos hw
    cases h with
    | @writePipe p hp hlt =>
      cases h1.symm.trans hp
      simp only [Produced, Function.update_self, reduceCtorEq, if_false]
      omega
    | writeOther hp hno =>
      cases h1.symm.trans hp
      cases hno
  | exit hw he =>
    have hz := Reader.left_zero hw he
    cases h
    simp only [Produced, if_true]
    omega

end Transfer

theorem produced_preparing {pc : StagePc Reader} {n held : ℕ} (h : pc.preparing = true) :
    Produced capacity n held pc ↔ held = 0 := by
  cases pc <;> first | rfl | cases h

theorem bytes_boot (h : Boot s) : BytesInv capacity out v s := by
  intro j _
  rw [h.unborn j]
  exact h.held j

theorem Inv.fork_unborn (h : Inv v s) {i inn r w : ℕ} (hpc : s.pc = .ready i inn r w) :
    (s.stage i).pc = .unborn := by
  have hm := h.main
  simp only [MainInv, hpc] at hm
  exact hm.2.2.1.after i (Nat.le_refl i)

theorem Inv.all_exited (h : Inv v s) {r : Reader} (hpc : s.pc = .running r) {j : ℕ}
    (hj : j < v.pipeCounter) : (s.stage j).pc = .exited := by
  have hm := h.main
  simp only [MainInv, hpc] at hm
  exact hm.2.1.before j hj

theorem Inv.running (h : Inv v s) {j : ℕ} {r : Reader} (hpc : (s.stage j).pc = .running r) :
    (s.stage j).table 0 = some (source j) ∧ (s.stage j).table 1 = some (.writeEnd j) ∧
      (∀ l < j, (s.stage l).pc = .exited) ∧ j < v.pipeCounter := by
  obtain ⟨_, _, hmain, -, -, hst⟩ := h.waiting (j := j) (by rw [hpc]; rfl)
  simp only [hpc] at hst
  have hm := h.main
  simp only [MainInv, hmain] at hm
  exact ⟨hst.1, hst.2, hm.2.2.1, hm.1.lt⟩

theorem bytes_step {a : Actor} (h : Inv v s) (hb : BytesInv capacity out v s)
    (hstep : Step (readers capacity eager out) v s a s') : BytesInv capacity out v s' := by
  intro l hl
  have hbl := hb l hl
  have hother {j : ℕ} {st : Stage Reader} {c : Channels} (hlj : l ≠ j)
      (hc : Produced capacity (out l) (c.held l) (s.stage l).pc) :
      Produced capacity (out l) (c.held l) (Function.update s.stage j st l).pc := by
    rwa [Function.update_of_ne hlj]
  cases hstep with
  | @fork i inn r w hpc =>
    by_cases hli : l = i
    · subst hli
      rw [h.fork_unborn hpc] at hbl
      simpa only [Function.update_self, Produced] using hbl
    · exact hother (c := s.channels) hli hbl
  | run hpc _ _ =>
    have hex := h.all_exited hpc hl
    rw [hex] at hbl
    simpa only [hex, Produced] using hbl
  | @stageMove j st hst =>
    obtain ⟨hold, hnew⟩ := move_preparing hst
    by_cases hlj : l = j
    · subst hlj
      rw [produced_preparing hold] at hbl
      simpa only [Function.update_self, produced_preparing hnew] using hbl
    · exact hother (c := s.channels) hlj hbl
  | @stageExec j cmd hpc _ =>
    by_cases hlj : l = j
    · subst hlj
      rw [hpc] at hbl
      simp only [Function.update_self, readers, Produced] at hbl ⊢
      omega
    · exact hother (c := s.channels) hlj hbl
  | @stageRun j r r' act c hpc hact htr =>
    obtain ⟨h0, h1, hbefore, -⟩ := h.running hpc
    by_cases hlj : l = j
    · subst hlj
      rw [hpc] at hbl
      simp only [Function.update_self]
      exact produced_run hact htr h0 h1 hbl
    · refine hother hlj ?_
      rcases Nat.lt_or_gt_of_ne hlj with hlt | hgt
      · rw [hbefore l hlt] at hbl ⊢
        exact hbl
      · rwa [htr.above h0 h1 hgt]
  | _ => exact hbl

end Bytes

section Progress

theorem words_first {t : Args} (h : words t ≠ []) : ∃ cmd, t 0 = some cmd := by
  rw [← words_head t]
  obtain ⟨w, ws, hw⟩ := List.exists_cons_of_ne_nil h
  exact ⟨w, by rw [hw]; rfl⟩

theorem Inv.progress {σ : Type} {W : World σ} {s : State σ} (h : Inv v s)
    (hplain : v.redirection.any = false) (hne : ∀ st ∈ v.stages, st ≠ []) (hx : s.pc ≠ .exited) :
    (∃ a, (child W v).Enabled s a) ∨ (∃ j p, (s.stage j).pc = .running p) ∨
      ∃ p, s.pc = .running p := by
  have hfirst {t : Args} {i : ℕ} (ht : v.stages[i]? = some (words t)) : ∃ cmd, t 0 = some cmd :=
    words_first (hne _ (List.mem_of_getElem? ht))
  have hmove {j : ℕ} (hprep : (s.stage j).pc.preparing = true) (hnx : (s.stage j).pc ≠ .exec) :
      ∃ a, (child W v).Enabled s a := by
    obtain ⟨st, hst⟩ := move_total hprep hnx
    exact ⟨.stage j, _, .stageMove hst⟩
  obtain ⟨hm, -, hb, -⟩ := h
  simp only [MainInv] at hm
  cases hpc : s.pc with
  | start => exact .inl ⟨.main, _, .plain hpc hplain⟩
  | redirExec => rw [hpc] at hm; exact hm.elim
  | loop i inn =>
    by_cases hi : i < v.pipeCounter
    · obtain ⟨r, hr, -⟩ := hb.exists_free 0
      obtain ⟨w, hw, hwr⟩ := hb.exists_free r
      exact .inl ⟨.main, _, .pipe hpc hi hr hw hwr.symm⟩
    · exact .inl ⟨.main, _, .done hpc hi⟩
  | piped i inn r w =>
    rw [hpc] at hm
    obtain ⟨t, c, hnext, -⟩ := hm.2.1.nextArg hne (Nat.le_of_lt hm.1.lt) s.tempargs
    exact .inl ⟨.main, _, .nextArg hpc hnext⟩
  | ready i inn r w => exact .inl ⟨.main, _, .fork hpc⟩
  | waiting i r w =>
    rw [hpc] at hm
    obtain ⟨-, -, -, -, hargs, -, hst⟩ := hm
    cases hs : (s.stage i).pc with
    | unborn => rw [hs] at hst; exact hst.elim
    | dupIn inn o => exact .inl (hmove (by rw [hs]; rfl) (by simp [hs]))
    | closeIn inn o => exact .inl (hmove (by rw [hs]; rfl) (by simp [hs]))
    | dupOut o => exact .inl (hmove (by rw [hs]; rfl) (by simp [hs]))
    | closeOut o => exact .inl (hmove (by rw [hs]; rfl) (by simp [hs]))
    | exec =>
      obtain ⟨cmd, hcmd⟩ := hfirst hargs
      exact .inl ⟨.stage i, _, .stageExec hs hcmd⟩
    | running p => exact .inr (.inl ⟨i, p, hs⟩)
    | exited => exact .inl ⟨.main, _, .waitpid hpc hs⟩
  | closing i r w => exact .inl ⟨.main, _, .close hpc⟩
  | dupLast inn => exact .inl ⟨.main, _, .dupLast hpc⟩
  | lastArg =>
    rw [hpc] at hm
    obtain ⟨t, c, hnext, -⟩ := hm.2.1.nextArg hne (Nat.le_refl _) s.tempargs
    exact .inl ⟨.main, _, .lastArg hpc hnext⟩
  | lastExec =>
    rw [hpc] at hm
    obtain ⟨cmd, hcmd⟩ := hfirst hm.2.2
    exact .inl ⟨.main, _, .lastExec hpc hcmd⟩
  | running p => exact .inr (.inr ⟨p, rfl⟩)
  | exited => exact absurd hpc hx

theorem Reader.act_or_full (capacity : ℕ) {Writers : ℕ → Prop} {t : FdTable} {c : Channels}
    {j : ℕ} {e : FileEnd}
    (r : Reader) (h0 : t 0 = some (source j)) (hnw : ∀ p, j = p + 1 → ¬ Writers p)
    (h1 : t 1 = some e) (he : ∀ p, e ≠ .readEnd p) :
    (∃ a r' c', r.Act a r' ∧ Transfer capacity Writers t c a c') ∨
      ∃ p, e = .writeEnd p ∧ capacity ≤ c.held p ∧ 0 < r.left := by
  cases hw : r.writes with
  | true =>
    have hother (hp : e.isPipe = false) : ∃ a r' c', r.Act a r' ∧
        Transfer capacity Writers t c a c' := ⟨_, _, _, .writeByte hw, .writeOther h1 hp⟩
    cases e with
    | readEnd p => exact absurd rfl (he p)
    | writeEnd p =>
      rcases Nat.lt_or_ge (c.held p) capacity with hlt | hge
      · exact .inl ⟨_, _, _, .writeByte hw, .writePipe h1 hlt⟩
      · exact .inr ⟨p, rfl, hge, Reader.left_pos hw⟩
    | inherited n => exact .inl (hother rfl)
    | file name mode => exact .inl (hother rfl)
  | false =>
    cases heof : r.eof with
    | true => exact .inl ⟨_, _, _, .exit hw heof, .exit⟩
    | false =>
      cases j with
      | zero =>
        rcases Nat.eq_zero_or_pos c.stdin with hz | hpos
        · exact .inl ⟨_, _, _, .readEof hw heof, .eofOther h0 rfl hz⟩
        · exact .inl ⟨_, _, _, .readByte hw heof, .readOther h0 rfl hpos⟩
      | succ p =>
        rcases Nat.eq_zero_or_pos (c.held p) with hz | hpos
        · exact .inl ⟨_, _, _, .readEof hw heof, .eofPipe h0 hz (hnw p rfl)⟩
        · exact .inl ⟨_, _, _, .readByte hw heof, .readPipe h0 hpos⟩

def Finished (v : ArgVector) (s : State Reader) : Prop :=
  s.pc = .exited ∧ ∀ j < v.pipeCounter, (s.stage j).pc = .exited

def NeverBlocks (W : World Reader) (v : ArgVector) : Prop :=
  ∀ s, (child W v).Reachable s → (child W v).Stuck s → Finished v s

theorem enabled_of_fits (h : Inv v s) (hb : BytesInv capacity out v s)
    (hplain : v.redirection.any = false) (hne : ∀ st ∈ v.stages, st ≠ [])
    (hfits : ∀ j < v.pipeCounter, out j ≤ capacity) (hx : s.pc ≠ .exited) :
    ∃ a, (child (readers capacity eager out) v).Enabled s a := by
  rcases h.progress (W := readers capacity eager out) hplain hne hx with
    hen | ⟨j, r, hpc⟩ | ⟨r, hpc⟩
  · exact hen
  · obtain ⟨h0, h1, -, hj⟩ := h.running hpc
    have hnw : ∀ p, j = p + 1 → ¬ s.Writers p := by
      rintro p rfl hw
      rw [(h.writers hw).1] at hpc
      cases hpc
    rcases r.act_or_full capacity (c := s.channels) h0 hnw h1 (by simp) with
      ⟨a, r', c', hact, htr⟩ | ⟨p, hp, hfull, hleft⟩
    · exact ⟨.stage j, _, .stageRun hpc hact htr⟩
    · cases hp
      have hbj := hb j hj
      rw [hpc] at hbj
      obtain ⟨hsum, -⟩ := hbj
      have := hfits j hj
      omega
  · have hm := h.main
    simp only [MainInv, hpc] at hm
    have hnw : ∀ p, v.pipeCounter = p + 1 → ¬ s.Writers p :=
      fun p _ hw => (h.writers hw).2 ⟨r, hpc⟩
    rcases r.act_or_full capacity (c := s.channels) hm.1.source hnw h.stdout (by simp) with
      ⟨a, r', c', hact, htr⟩ | ⟨p, hp, -, -⟩
    · exact ⟨.main, _, .run hpc hact htr⟩
    · cases hp

end Progress

section Work

def Reader.work (r : Reader) : ℕ := 2 * r.left + (if r.eof then 0 else 1) + 1

def stageWork (n : ℕ) : StagePc Reader → ℕ
  | .unborn => 2 * n + 7
  | .dupIn _ _ => 2 * n + 7
  | .closeIn _ _ => 2 * n + 6
  | .dupOut _ => 2 * n + 5
  | .closeOut _ => 2 * n + 4
  | .exec => 2 * n + 3
  | .running r => r.work
  | .exited => 0

def mainWork (k n : ℕ) : MainPc Reader → ℕ
  | .start => 5 * k + 2 * n + 7
  | .redirExec => 5 * k + 2 * n + 7
  | .loop i _ => 5 * (k - i) + 2 * n + 6
  | .piped i _ _ _ => 5 * (k - i) + 2 * n + 5
  | .ready i _ _ _ => 5 * (k - i) + 2 * n + 4
  | .waiting i _ _ => 5 * (k - i) + 2 * n + 3
  | .closing i _ _ => 5 * (k - i) + 2 * n + 2
  | .dupLast _ => 2 * n + 5
  | .lastArg => 2 * n + 4
  | .lastExec => 2 * n + 3
  | .running r => r.work
  | .exited => 0

def stagesWork (k : ℕ) (out : ℕ → ℕ) (stage : ℕ → Stage Reader) (held : ℕ → ℕ) : ℕ :=
  ∑ j ∈ Finset.range k, (stageWork (out j) (stage j).pc + held j)

def totalWork (v : ArgVector) (out : ℕ → ℕ) (s : State Reader) : ℕ :=
  mainWork v.pipeCounter (out v.pipeCounter) s.pc +
    (stagesWork v.pipeCounter out s.stage s.channels.held + s.channels.stdin)

theorem sum_range_change {f g : ℕ → ℕ} {k j : ℕ} (hj : j < k) (h : ∀ i, i ≠ j → f i = g i) :
    ∑ i ∈ Finset.range k, f i + g j = ∑ i ∈ Finset.range k, g i + f j := by
  have hmem := Finset.mem_range.mpr hj
  have hrest : ∑ i ∈ (Finset.range k).erase j, f i = ∑ i ∈ (Finset.range k).erase j, g i :=
    Finset.sum_congr rfl fun i hi => h i (Finset.ne_of_mem_erase hi)
  rw [← Finset.add_sum_erase _ f hmem, ← Finset.add_sum_erase _ g hmem, hrest]
  omega

variable {k : ℕ}

theorem stagesWork_stage (out : ℕ → ℕ) (stage : ℕ → Stage Reader) (held : ℕ → ℕ)
    {j : ℕ} (hj : j < k) (st : Stage Reader) :
    stagesWork k out (Function.update stage j st) held + stageWork (out j) (stage j).pc =
      stagesWork k out stage held + stageWork (out j) st.pc := by
  have := sum_range_change (f := fun i =>
    stageWork (out i) (Function.update stage j st i).pc + held i)
    (g := fun i => stageWork (out i) (stage i).pc + held i) hj
    (fun i hi => by simp [hi])
  simp only [Function.update_self] at this
  simp only [stagesWork]
  omega

theorem stagesWork_held (out : ℕ → ℕ) (stage : ℕ → Stage Reader) (held : ℕ → ℕ)
    {p : ℕ} (hp : p < k) (n : ℕ) :
    stagesWork k out stage (Function.update held p n) + held p =
      stagesWork k out stage held + n := by
  have := sum_range_change (f := fun i =>
    stageWork (out i) (stage i).pc + Function.update held p n i)
    (g := fun i => stageWork (out i) (stage i).pc + held i) hp
    (fun i hi => by simp [hi])
  simp only [Function.update_self] at this
  simp only [stagesWork]
  omega

theorem move_work {st st' : Stage Reader} {n : ℕ} (h : st.move = some st') :
    stageWork n st'.pc < stageWork n st.pc := by
  rcases Stage.move_cases h with ⟨_, _, hpc, ⟨-, rfl⟩ | ⟨-, rfl⟩⟩ | ⟨_, _, hpc, rfl⟩ |
    ⟨_, hpc, ⟨-, rfl⟩ | ⟨-, rfl⟩⟩ | ⟨_, hpc, rfl⟩
  all_goals
    rw [hpc]
    simp only [stageWork]
    omega

theorem Inv.live_lt {σ : Type} {s : State σ} (h : Inv v s) {j : ℕ}
    (hj : (s.stage j).pc.live = true) : j < v.pipeCounter := by
  obtain ⟨r, w, hpc, -⟩ := h.waiting hj
  have hm := h.main
  simp only [MainInv, hpc] at hm
  exact hm.1.lt

theorem transfer_work (out : ℕ → ℕ) (stage : ℕ → Stage Reader) {Writers : ℕ → Prop}
    {t : FdTable} {c c' : Channels} {a : Io} {j : ℕ} {e : FileEnd} {r r' : Reader}
    (hact : r.Act a r') (h : Transfer capacity Writers t c a c')
    (h0 : t 0 = some (source j)) (hj : j ≤ k) (h1 : t 1 = some e)
    (he : ∀ p, e = .writeEnd p → p < k) :
    (if a = .exit then 0 else r'.work) + (stagesWork k out stage c'.held + c'.stdin) <
      r.work + (stagesWork k out stage c.held + c.stdin) := by
  cases hact with
  | readByte _ _ =>
    simp only [Reader.work, reduceCtorEq, if_false]
    cases h with
    | @readPipe p hp hpos =>
      have := source_eq_readEnd (Option.some.inj (h0.symm.trans hp))
      have hsum := stagesWork_held out stage c.held (by omega : p < k) (c.held p - 1)
      dsimp only
      omega
    | readOther _ _ hpos =>
      dsimp only
      omega
  | readEof _ heof =>
    simp only [Reader.work, reduceCtorEq, if_false, heof, if_true, Bool.false_eq_true]
    cases h <;> omega
  | writeByte hw =>
    have hpos := Reader.left_pos hw
    simp only [Reader.work, reduceCtorEq, if_false]
    cases h with
    | @writePipe p hp hlt =>
      have hpk := he p (Option.some.inj (h1.symm.trans hp))
      have hsum := stagesWork_held out stage c.held hpk (c.held p + 1)
      dsimp only
      omega
    | writeOther _ _ => omega
  | exit _ _ =>
    cases h
    simp only [if_true, Reader.work]
    omega

theorem work_decreases {a : Actor} (h : Inv v s) (hplain : v.redirection.any = false)
    (hstep : Step (readers capacity eager out) v s a s') : totalWork v out s' < totalWork v out s := by
  have hm := h.main
  simp only [MainInv] at hm
  have hstage {j : ℕ} (hj : j < v.pipeCounter) (st : Stage Reader) :=
    stagesWork_stage out s.stage s.channels.held hj st
  cases hstep with
  | redirect _ hany _ => rw [hplain] at hany; cases hany
  | redirExec hpc => rw [hpc] at hm; exact hm.elim
  | plain hpc _ => simp only [totalWork, hpc, mainWork]; omega
  | pipe hpc hi _ _ _ => simp only [totalWork, hpc, mainWork]; omega
  | nextArg hpc _ => simp only [totalWork, hpc, mainWork]; omega
  | @fork i inn r w hpc =>
    have hu := h.fork_unborn hpc
    rw [hpc] at hm
    have hsum := hstage hm.1.lt ⟨.dupIn inn w, s.table, s.tempargs⟩
    simp only [hu, stageWork] at hsum
    simp only [totalWork, hpc, mainWork]
    omega
  | waitpid hpc _ => simp only [totalWork, hpc, mainWork]; omega
  | close hpc =>
    rw [hpc] at hm
    have := hm.1.lt
    simp only [totalWork, hpc, mainWork]
    omega
  | done hpc hi => simp only [totalWork, hpc, mainWork]; omega
  | dupLast hpc => simp only [totalWork, hpc, mainWork]; omega
  | lastArg hpc _ => simp only [totalWork, hpc, mainWork]; omega
  | lastExec hpc _ =>
    simp only [totalWork, hpc, mainWork, readers, Reader.work, Bool.false_eq_true, if_false]
    omega
  | @run r r' act c hpc hact htr =>
    rw [hpc] at hm
    have := transfer_work (k := v.pipeCounter) out s.stage hact htr hm.1.source (Nat.le_refl _)
      h.stdout (by simp)
    simp only [totalWork, hpc, mainWork]
    split_ifs at this ⊢ <;> simpa only [mainWork] using this
  | @stageMove j st hst =>
    have hj := h.live_lt (preparing_live (move_preparing hst).1)
    have hsum := hstage hj st
    have hlt := move_work (n := out j) hst
    simp only [totalWork]
    omega
  | @stageExec j cmd hpc _ =>
    have hj := h.live_lt (j := j) (by rw [hpc]; rfl)
    have hsum := hstage hj { s.stage j with pc := .running ((readers capacity eager out).start j) }
    simp only [hpc, stageWork, readers, Reader.work, Bool.false_eq_true, if_false] at hsum
    simp only [totalWork, readers]
    omega
  | @stageRun j r r' act c hpc hact htr =>
    obtain ⟨h0, h1, -, hj⟩ := h.running hpc
    have hsum := stagesWork_stage out s.stage c.held hj
      { s.stage j with pc := if act = .exit then .exited else .running r' }
    have hlt := transfer_work (k := v.pipeCounter) out s.stage hact htr h0 (Nat.le_of_lt hj) h1
       (fun p hp => by cases hp; exact hj)
    rw [hpc] at hsum
    simp only [totalWork]
    split_ifs at hsum hlt ⊢ <;> simp only [stageWork] at hsum <;> omega

end Work

theorem bytes_reachable (hplain : v.redirection.any = false) (hne : ∀ st ∈ v.stages, st ≠ [])
    (hs : (child (readers capacity eager out) v).Reachable s) : BytesInv capacity out v s :=
  hs.invariant (fun _ h => bytes_boot h) fun _ _ _ hr hb hstep =>
    bytes_step (inv_reachable hplain hne hr) hb hstep

theorem finished_of_exited (h : Inv v s) (hpc : s.pc = .exited) : Finished v s := by
  have hm := h.main
  simp only [MainInv, hpc] at hm
  exact ⟨hpc, hm.2.before⟩

theorem fits_of_finished (hb : BytesInv capacity out v s) (hf : Finished v s) :
    ∀ j < v.pipeCounter, out j ≤ capacity := by
  intro j hj
  have := hb j hj
  rwa [hf.2 j hj] at this

theorem blocks_of_overflow (hplain : v.redirection.any = false) (hne : ∀ st ∈ v.stages, st ≠ [])
    (hover : ∃ j < v.pipeCounter, capacity < out j) :
    ¬ NeverBlocks (readers capacity eager out) v := by
  intro hall
  have hboot : (child (readers capacity eager out) v).Reachable bootState := .init boot_state
  obtain ⟨s, hs, hstuck⟩ := hboot.stuck_exists (totalWork v out) fun _ _ _ hr hstep =>
    work_decreases (inv_reachable hplain hne hr) hplain hstep
  obtain ⟨j, hj, hlt⟩ := hover
  have := fits_of_finished (bytes_reachable hplain hne hs) (hall s hs hstuck) j hj
  omega

theorem never_blocks_iff (hplain : v.redirection.any = false) (hne : ∀ st ∈ v.stages, st ≠ []) :
    NeverBlocks (readers capacity eager out) v ↔ ∀ j < v.pipeCounter, out j ≤ capacity := by
  constructor
  · intro hall j hj
    by_contra hno
    exact blocks_of_overflow hplain hne ⟨j, hj, Nat.lt_of_not_le hno⟩ hall
  · intro hfits s hs hstuck
    have h := inv_reachable hplain hne hs
    by_cases hx : s.pc = .exited
    · exact finished_of_exited h hx
    · obtain ⟨a, ha⟩ := enabled_of_fits h (bytes_reachable hplain hne hs) hplain hne hfits hx
      exact absurd ha (hstuck a)

theorem small_output_never_blocks :
    NeverBlocks (readers 65536 (fun _ _ _ => true) fun _ => 65536) catPipe :=
  (never_blocks_iff (by decide) (by decide)).mpr fun _ _ => Nat.le_refl _

theorem large_output_blocks :
    ¬ NeverBlocks (readers 65536 (fun _ _ _ => true) fun _ => 65537) catPipe :=
  blocks_of_overflow (by decide) (by decide) ⟨0, by decide, by decide⟩

end Shell
