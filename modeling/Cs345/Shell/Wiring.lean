import Cs345.Shell.Pipeline

namespace Shell
variable {σ : Type} {W : World σ} {v : ArgVector} {s s' : State σ}

def source (i : ℕ) : FileEnd := if i = 0 then .inherited 0 else .readEnd (i - 1)

theorem source_ne_writeEnd (i p : ℕ) : source i ≠ .writeEnd p := by
  simp only [source]
  split <;> nofun

def Unwritten (t : FdTable) : Prop := ∀ p, ¬ Holds t (.writeEnd p)

def WritesOnly (t : FdTable) (i : ℕ) : Prop := ∀ p, Holds t (.writeEnd p) → p = i

section Stage

def StageInv (v : ArgVector) (i : ℕ) (st : Stage σ) : Prop :=
  v.stages[i]? = some (words st.tempargs) ∧ WritesOnly st.table i ∧
    match st.pc with
    | .unborn => False
    | .dupIn inn out =>
      out ≠ 0 ∧ st.table inn = some (source i) ∧ st.table out = some (.writeEnd i)
    | .closeIn inn out =>
      inn ≠ 0 ∧ st.table 0 = some (source i) ∧ st.table inn = some (source i) ∧
        st.table out = some (.writeEnd i)
    | .dupOut out => st.table 0 = some (source i) ∧ st.table out = some (.writeEnd i)
    | .closeOut out =>
      out ≠ 1 ∧ st.table 0 = some (source i) ∧ st.table 1 = some (.writeEnd i) ∧
        st.table out = some (.writeEnd i)
    | .exec => st.table 0 = some (source i) ∧ st.table 1 = some (.writeEnd i)
    | .running _ => st.table 0 = some (source i) ∧ st.table 1 = some (.writeEnd i)
    | .exited => True

variable {i : ℕ} {st st' : Stage σ}

theorem ne_of_ends {t : FdTable} {a b i p : ℕ} (ha : t a = some (source i))
    (hb : t b = some (.writeEnd p)) : a ≠ b := by
  rintro rfl
  exact source_ne_writeEnd i p (Option.some.inj (ha.symm.trans hb))

theorem WritesOnly.dup2 {t : FdTable} {a b : ℕ} (h : WritesOnly t i) : WritesOnly (dup2 t a b) i :=
  fun p hp => h p hp.of_dup2

theorem WritesOnly.close {t : FdTable} {a : ℕ} (h : WritesOnly t i) : WritesOnly (close t a) i :=
  fun p hp => h p hp.of_close

theorem stageInv_move (h : StageInv v i st) (hm : st.move = some st') : StageInv v i st' := by
  obtain ⟨hargs, hw, hpc⟩ := h
  rcases Stage.move_cases hm with ⟨inn, out, hst, hcase⟩ | ⟨inn, out, hst, rfl⟩ |
    ⟨out, hst, hcase⟩ | ⟨out, hst, rfl⟩
  · rw [hst] at hpc
    obtain ⟨hout0, hin, hout⟩ := hpc
    rcases hcase with ⟨h0, rfl⟩ | ⟨rfl, rfl⟩
    · exact ⟨hargs, hw.dup2, h0, dup2_at hin, (dup2_of_ne h0).trans hin,
        (dup2_of_ne hout0).trans hout⟩
    · exact ⟨hargs, hw, hin, hout⟩
  · rw [hst] at hpc
    obtain ⟨h0, hsrc, hin, hout⟩ := hpc
    exact ⟨hargs, hw.close, (close_of_ne h0.symm).trans hsrc,
      (close_of_ne (ne_of_ends hin hout).symm).trans hout⟩
  · rw [hst] at hpc
    obtain ⟨hsrc, hout⟩ := hpc
    rcases hcase with ⟨h1, rfl⟩ | ⟨rfl, rfl⟩
    · exact ⟨hargs, hw.dup2, h1, (dup2_of_ne Nat.zero_ne_one).trans hsrc, dup2_at hout,
        (dup2_of_ne h1).trans hout⟩
    · exact ⟨hargs, hw, hsrc, hout⟩
  · rw [hst] at hpc
    obtain ⟨h1, hsrc, hwr, hout⟩ := hpc
    exact ⟨hargs, hw.close, (close_of_ne (ne_of_ends hsrc hout)).trans hsrc,
      (close_of_ne h1.symm).trans hwr⟩

end Stage

section Main

structure Spawned (stage : ℕ → Stage σ) (i : ℕ) : Prop where
  before : ∀ j < i, (stage j).pc = .exited
  after : ∀ j, i ≤ j → (stage j).pc = .unborn

structure Between (v : ArgVector) (t : FdTable) (pipes i inn : ℕ) : Prop where
  le : i ≤ v.pipeCounter
  stdin : t 0 = some (.inherited 0)
  source : t inn = some (source i)
  unwritten : Unwritten t
  pipes : pipes = i

structure Piped (v : ArgVector) (t : FdTable) (pipes i r w : ℕ) : Prop where
  lt : i < v.pipeCounter
  stdin : t 0 = some (.inherited 0)
  reader : t r = some (.readEnd i)
  writer : t w = some (.writeEnd i)
  only : ∀ fd p, t fd = some (.writeEnd p) → fd = w ∧ p = i
  pipes : pipes = i + 1

structure Last (v : ArgVector) (t : FdTable) : Prop where
  source : t 0 = some (source v.pipeCounter)
  unwritten : Unwritten t

def MainInv (v : ArgVector) (s : State σ) : Prop :=
  match s.pc with
  | .start => Between v s.table s.pipes 0 0 ∧ v.Cursor s.nextPipe 0 ∧ Spawned s.stage 0
  | .redirExec => False
  | .loop i inn => Between v s.table s.pipes i inn ∧ v.Cursor s.nextPipe i ∧ Spawned s.stage i
  | .piped i inn r w =>
    Piped v s.table s.pipes i r w ∧ v.Cursor s.nextPipe i ∧ Spawned s.stage i ∧
      s.table inn = some (source i)
  | .ready i inn r w =>
    Piped v s.table s.pipes i r w ∧ v.Cursor s.nextPipe (i + 1) ∧ Spawned s.stage i ∧
      s.table inn = some (source i) ∧ v.stages[i]? = some (words s.tempargs)
  | .waiting i r w =>
    Piped v s.table s.pipes i r w ∧ v.Cursor s.nextPipe (i + 1) ∧
      (∀ j < i, (s.stage j).pc = .exited) ∧ (∀ j, i < j → (s.stage j).pc = .unborn) ∧
      StageInv v i (s.stage i)
  | .closing i r w =>
    Piped v s.table s.pipes i r w ∧ v.Cursor s.nextPipe (i + 1) ∧ Spawned s.stage (i + 1)
  | .dupLast inn =>
    Between v s.table s.pipes v.pipeCounter inn ∧ v.Cursor s.nextPipe v.pipeCounter ∧
      Spawned s.stage v.pipeCounter
  | .lastArg =>
    Last v s.table ∧ v.Cursor s.nextPipe v.pipeCounter ∧ Spawned s.stage v.pipeCounter
  | .lastExec =>
    Last v s.table ∧ Spawned s.stage v.pipeCounter ∧
      v.stages[v.pipeCounter]? = some (words s.tempargs)
  | .running _ =>
    Last v s.table ∧ Spawned s.stage v.pipeCounter ∧
      v.stages[v.pipeCounter]? = some (words s.tempargs)
  | .exited => Last v s.table ∧ Spawned s.stage v.pipeCounter

structure Inv (v : ArgVector) (s : State σ) : Prop where
  main : MainInv v s
  stdout : s.table 1 = some (.inherited 1)
  bounded : Bounded s.table
  execs : ∀ argv ∈ s.execs, argv ∈ v.stages

theorem inv_boot (h : Boot s) : Inv v s := by
  obtain ⟨fds, h0, h1, -, htable⟩ := h.table
  have hunwritten : Unwritten s.table := by
    rintro p ⟨fd, hfd⟩
    rw [htable] at hfd
    simp only at hfd
    split_ifs at hfd
    cases hfd
  have hstdin : s.table 0 = some (.inherited 0) := by rw [htable]; exact if_pos h0
  have hbounded : Bounded s.table := by
    obtain ⟨n, hn⟩ := fds.exists_nat_subset_range
    refine ⟨n, fun fd hfd => ?_⟩
    rw [htable]
    refine if_neg fun hmem => ?_
    have := Finset.mem_range.mp (hn hmem)
    omega
  refine ⟨?_, by rw [htable]; exact if_pos h1, hbounded, by simp [h.execs]⟩
  simp only [MainInv, h.pc]
  rw [h.nextPipe]
  exact ⟨⟨Nat.zero_le _, hstdin, hstdin, hunwritten, h.pipes⟩, ArgVector.cursor_zero,
    fun j hj => absurd hj (Nat.not_lt_zero j), fun j _ => h.unborn j⟩

theorem Inv.cases (h : Inv v s) :
    (Unwritten s.table ∧ ∃ l, Spawned s.stage l) ∨
    ∃ i r w, Piped v s.table s.pipes i r w ∧ (∀ j, i < j → (s.stage j).pc = .unborn) ∧
      (¬ ∃ q, s.pc = .running q) ∧
      ((∃ l, Spawned s.stage l) ∨
        s.pc = .waiting i r w ∧ (∀ j < i, (s.stage j).pc = .exited) ∧ StageInv v i (s.stage i)) := by
  have hm := h.main
  simp only [MainInv] at hm
  cases hpc : s.pc with
  | redirExec => rw [hpc] at hm; exact hm.elim
  | start => rw [hpc] at hm; exact .inl ⟨hm.1.unwritten, _, hm.2.2⟩
  | loop i inn => rw [hpc] at hm; exact .inl ⟨hm.1.unwritten, _, hm.2.2⟩
  | piped i inn r w =>
    rw [hpc] at hm
    exact .inr ⟨i, r, w, hm.1, fun j hj => hm.2.2.1.after j (Nat.le_of_lt hj), by simp,
      .inl ⟨_, hm.2.2.1⟩⟩
  | ready i inn r w =>
    rw [hpc] at hm
    exact .inr ⟨i, r, w, hm.1, fun j hj => hm.2.2.1.after j (Nat.le_of_lt hj), by simp,
      .inl ⟨_, hm.2.2.1⟩⟩
  | waiting i r w =>
    rw [hpc] at hm
    exact .inr ⟨i, r, w, hm.1, hm.2.2.2.1, by simp, .inr ⟨rfl, hm.2.2.1, hm.2.2.2.2⟩⟩
  | closing i r w =>
    rw [hpc] at hm
    exact .inr ⟨i, r, w, hm.1, fun j hj => hm.2.2.after j hj, by simp, .inl ⟨_, hm.2.2⟩⟩
  | dupLast inn => rw [hpc] at hm; exact .inl ⟨hm.1.unwritten, _, hm.2.2⟩
  | lastArg => rw [hpc] at hm; exact .inl ⟨hm.1.unwritten, _, hm.2.2⟩
  | lastExec => rw [hpc] at hm; exact .inl ⟨hm.1.unwritten, _, hm.2.1⟩
  | running q => rw [hpc] at hm; exact .inl ⟨hm.1.unwritten, _, hm.2.1⟩
  | exited => rw [hpc] at hm; exact .inl ⟨hm.1.unwritten, _, hm.2⟩

theorem Spawned.not_live {stage : ℕ → Stage σ} {i j : ℕ} (h : Spawned stage i) :
    (stage j).pc.live = false := by
  rcases Nat.lt_or_ge j i with hlt | hge
  · rw [h.before j hlt]; rfl
  · rw [h.after j hge]; rfl

theorem Inv.waiting (h : Inv v s) {j : ℕ} (hj : (s.stage j).pc.live = true) :
    ∃ r w, s.pc = .waiting j r w ∧ StageInv v j (s.stage j) := by
  rcases h.cases with ⟨-, l, hsp⟩ | ⟨i, r, w, -, hafter, -, ⟨l, hsp⟩ | ⟨hpc, hbefore, hst⟩⟩
  · rw [hsp.not_live] at hj; cases hj
  · rw [hsp.not_live] at hj; cases hj
  · rcases Nat.lt_trichotomy j i with hlt | rfl | hgt
    · rw [hbefore j hlt] at hj; cases hj
    · exact ⟨r, w, hpc, hst⟩
    · rw [hafter j hgt] at hj; cases hj

theorem Inv.stage_step (h : Inv v s) {j : ℕ} {st : Stage σ} (hj : (s.stage j).pc.live = true)
    (hst : StageInv v j (s.stage j) → StageInv v j st) (c : Channels) {execs : List (List Word)}
    (hexecs : ∀ argv ∈ execs, argv ∈ v.stages) :
    Inv v { s with stage := Function.update s.stage j st, channels := c, execs := execs } := by
  obtain ⟨r, w, hpc, hinv⟩ := h.waiting hj
  have hm := h.main
  simp only [MainInv, hpc] at hm
  obtain ⟨hp, hc, hbefore, hafter, -⟩ := hm
  refine ⟨?_, h.stdout, h.bounded, hexecs⟩
  simp only [MainInv, hpc, Function.update_self]
  refine ⟨hp, hc, fun l hl => ?_, fun l hl => ?_, hst hinv⟩
  · rw [Function.update_of_ne (Nat.ne_of_lt hl)]
    exact hbefore l hl
  · rw [Function.update_of_ne (Nat.ne_of_gt hl)]
    exact hafter l hl

theorem mem_execLog {t : Args} {cmd : Word} {argv : List Word} (h : argv ∈ execLog t cmd) :
    argv = words t := by
  simp only [execLog] at h
  split_ifs at h
  · cases h
  · exact List.mem_singleton.mp h

theorem execs_append {execs : List (List Word)} {t : Args} {cmd : Word} {i : ℕ}
    (h : ∀ argv ∈ execs, argv ∈ v.stages) (ht : v.stages[i]? = some (words t)) :
    ∀ argv ∈ execs ++ execLog t cmd, argv ∈ v.stages := by
  intro argv hargv
  rcases List.mem_append.mp hargv with hold | hnew
  · exact h argv hold
  · rw [mem_execLog hnew]
    exact List.mem_of_getElem? ht

section Pipe
variable {t : FdTable} {pipes i inn r w : ℕ}

theorem pipeTable_keep (hr : t r = none) (hw : t w = none) {fd p : ℕ} {e : FileEnd}
    (hfd : t fd = some e) : pipeTable t p r w fd = some e := by
  have hfr : fd ≠ r := by rintro rfl; simp [hfd] at hr
  have hfw : fd ≠ w := by rintro rfl; simp [hfd] at hw
  rw [pipeTable, Function.update_of_ne hfw, Function.update_of_ne hfr, hfd]

theorem Between.pipe (h : Between v t pipes i inn) (hi : i < v.pipeCounter) (hr : t r = none)
    (hw : t w = none) (hrw : r ≠ w) : Piped v (pipeTable t pipes r w) (pipes + 1) i r w := by
  obtain rfl := h.pipes
  refine ⟨hi, pipeTable_keep hr hw h.stdin, ?_, ?_, fun fd p hfd => ?_, rfl⟩
  · simp [pipeTable, Function.update_of_ne hrw]
  · simp [pipeTable]
  · by_cases hfdw : fd = w
    · simp only [pipeTable, hfdw, Function.update_self, Option.some.injEq,
        FileEnd.writeEnd.injEq] at hfd
      exact ⟨hfdw, hfd.symm⟩
    · simp only [pipeTable, Function.update_of_ne hfdw] at hfd
      by_cases hfdr : fd = r
      · simp [hfdr] at hfd
      · rw [Function.update_of_ne hfdr] at hfd
        exact absurd ⟨fd, hfd⟩ (h.unwritten p)

theorem Piped.close (h : Piped v t pipes i r w) : Between v (close t w) pipes (i + 1) r := by
  have h0 : 0 ≠ w := by rintro rfl; cases h.stdin.symm.trans h.writer
  have hr : r ≠ w := by rintro rfl; cases h.reader.symm.trans h.writer
  refine ⟨h.lt, (close_of_ne h0).trans h.stdin, (close_of_ne hr).trans h.reader, ?_, h.pipes⟩
  rintro p ⟨fd, hfd⟩
  obtain ⟨hne, hfd⟩ := close_some hfd
  exact hne (h.only fd p hfd).1

end Pipe

theorem Unwritten.dup2 {t : FdTable} {a b : ℕ} (h : Unwritten t) : Unwritten (dup2 t a b) :=
  fun p hp => h p hp.of_dup2

theorem inv_step {a : Actor} (hplain : v.redirection.any = false)
    (hne : ∀ st ∈ v.stages, st ≠ []) (h : Inv v s) (hstep : Step W v s a s') : Inv v s' := by
  obtain ⟨hm, hout, hb, hex⟩ := id h
  cases hstep with
  | redirect _ hany _ => rw [hplain] at hany; cases hany
  | redirExec hpc => simp only [MainInv, hpc] at hm
  | plain hpc _ =>
    simp only [MainInv, hpc] at hm
    exact ⟨hm, hout, hb, hex⟩
  | @pipe i inn r w hpc hi hr hw hrw =>
    simp only [MainInv, hpc] at hm
    obtain ⟨hbt, hc, hsp⟩ := hm
    exact ⟨⟨hbt.pipe hi hr hw hrw, hc, hsp, pipeTable_keep hr hw hbt.source⟩,
      pipeTable_keep hr hw hout, (hb.update _).update _, hex⟩
  | @nextArg i inn r w c t hpc hnext =>
    simp only [MainInv, hpc] at hm
    obtain ⟨hp, hc, hsp, hsrc⟩ := hm
    obtain ⟨t', c', heq, hwords, hc'⟩ := hc.nextArg hne (Nat.le_of_lt hp.lt) s.tempargs
    cases heq.symm.trans hnext
    exact ⟨⟨hp, hc' hp.lt, hsp, hsrc, hwords⟩, hout, hb, hex⟩
  | @fork i inn r w hpc =>
    simp only [MainInv, hpc] at hm
    obtain ⟨hp, hc, hsp, hsrc, hwords⟩ := hm
    have hw0 : w ≠ 0 := by rintro rfl; cases hp.stdin.symm.trans hp.writer
    refine ⟨⟨hp, hc, fun j hj => ?_, fun j hj => ?_, ?_⟩, hout, hb, hex⟩
    · simpa only [Function.update_of_ne (Nat.ne_of_lt hj)] using hsp.before j hj
    · simpa only [Function.update_of_ne (Nat.ne_of_gt hj)] using hsp.after j (Nat.le_of_lt hj)
    · simp only [Function.update_self, StageInv]
      refine ⟨hwords, ?_, hw0, hsrc, hp.writer⟩
      rintro p ⟨fd, hfd⟩
      exact (hp.only fd p hfd).2
  | @waitpid i r w hpc hexit =>
    simp only [MainInv, hpc] at hm
    obtain ⟨hp, hc, hbefore, hafter, -⟩ := hm
    refine ⟨⟨hp, hc, fun j hj => ?_, hafter⟩, hout, hb, hex⟩
    rcases Nat.lt_or_eq_of_le (Nat.le_of_lt_succ hj) with hlt | rfl
    · exact hbefore j hlt
    · exact hexit
  | @close i r w hpc =>
    simp only [MainInv, hpc] at hm
    obtain ⟨hp, hc, hsp⟩ := hm
    have h1 : 1 ≠ w := by rintro rfl; cases hout.symm.trans hp.writer
    exact ⟨⟨hp.close, hc, hsp⟩, (close_of_ne h1).trans hout, hb.close, hex⟩
  | @done i inn hpc hi =>
    simp only [MainInv, hpc] at hm
    obtain rfl : i = v.pipeCounter := Nat.le_antisymm hm.1.le (Nat.not_lt.mp hi)
    exact ⟨hm, hout, hb, hex⟩
  | @dupLast inn hpc =>
    simp only [MainInv, hpc] at hm
    obtain ⟨hbt, hc, hsp⟩ := hm
    by_cases h0 : inn = 0
    · simp only [h0, ne_eq, not_true, if_false]
      exact ⟨⟨⟨h0 ▸ hbt.source, hbt.unwritten⟩, hc, hsp⟩, hout, hb, hex⟩
    · simp only [h0, ne_eq, not_false_eq_true, if_true]
      exact ⟨⟨⟨dup2_at hbt.source, hbt.unwritten.dup2⟩, hc, hsp⟩,
        (dup2_of_ne Nat.one_ne_zero).trans hout, hb.dup2, hex⟩
  | @lastArg c t hpc hnext =>
    simp only [MainInv, hpc] at hm
    obtain ⟨hl, hc, hsp⟩ := hm
    obtain ⟨t', c', heq, hwords, -⟩ := hc.nextArg hne (Nat.le_refl _) s.tempargs
    cases heq.symm.trans hnext
    exact ⟨⟨hl, hsp, hwords⟩, hout, hb, hex⟩
  | @lastExec cmd hpc _ =>
    simp only [MainInv, hpc] at hm
    exact ⟨hm, hout, hb, execs_append hex hm.2.2⟩
  | @run p p' act c hpc _ _ =>
    simp only [MainInv, hpc] at hm
    refine ⟨?_, hout, hb, hex⟩
    by_cases hact : act = .exit
    · simp only [MainInv, hact, if_true]
      exact ⟨hm.1, hm.2.1⟩
    · simp only [MainInv, hact, if_false]
      exact hm
  | @stageMove j st hst =>
    have hj : (s.stage j).pc.live = true := by
      cases hpc : (s.stage j).pc <;> simp_all [Stage.move, StagePc.live]
    exact h.stage_step hj (fun hi => stageInv_move hi hst) s.channels hex
  | @stageExec j cmd hpc _ =>
    have hj : (s.stage j).pc.live = true := by rw [hpc]; rfl
    obtain ⟨_, _, -, hinv⟩ := h.waiting hj
    refine h.stage_step hj (fun hi => ?_) s.channels (execs_append hex hinv.1)
    simp only [StageInv, hpc] at hi ⊢
    exact hi
  | @stageRun j p p' act c hpc _ _ =>
    have hj : (s.stage j).pc.live = true := by rw [hpc]; rfl
    refine h.stage_step hj (fun hi => ?_) c hex
    simp only [StageInv, hpc] at hi ⊢
    by_cases hact : act = .exit
    · simp only [hact, if_true]
      exact ⟨hi.1, hi.2.1, trivial⟩
    · simpa only [hact, if_false] using hi

theorem inv_reachable (hplain : v.redirection.any = false) (hne : ∀ st ∈ v.stages, st ≠ [])
    (hs : (child W v).Reachable s) : Inv v s :=
  hs.invariant (fun _ h => inv_boot h) fun _ _ _ _ h hstep => inv_step hplain hne h hstep

end Main

section Running

def Runs (v : ArgVector) (s : State σ) (j : ℕ) (t : FdTable) (argv : List Word) : Prop :=
  if j < v.pipeCounter then
    (∃ p, (s.stage j).pc = .running p) ∧ (s.stage j).table = t ∧ words (s.stage j).tempargs = argv
  else (∃ p, s.pc = .running p) ∧ s.table = t ∧ words s.tempargs = argv

def Started (v : ArgVector) (s : State σ) (j : ℕ) : Prop :=
  if j < v.pipeCounter then (s.stage j).pc ≠ .unborn else ∃ p, s.pc = .running p

theorem Inv.runs (h : Inv v s) {j : ℕ} {t : FdTable} {argv : List Word} (hj : j ≤ v.pipeCounter)
    (hr : Runs v s j t argv) :
    t 0 = some (source j) ∧
      t 1 = some (if j < v.pipeCounter then .writeEnd j else .inherited 1) ∧
      v.stages[j]? = some argv := by
  by_cases hlt : j < v.pipeCounter
  · simp only [Runs, if_pos hlt] at hr
    obtain ⟨⟨p, hpc⟩, rfl, rfl⟩ := hr
    obtain ⟨_, _, -, hargs, -, hst⟩ := h.waiting (j := j) (by rw [hpc]; rfl)
    simp only [hpc] at hst
    exact ⟨hst.1, by rw [if_pos hlt]; exact hst.2, hargs⟩
  · obtain rfl : j = v.pipeCounter := Nat.le_antisymm hj (Nat.not_lt.mp hlt)
    simp only [Runs, if_neg hlt] at hr
    obtain ⟨⟨p, hpc⟩, rfl, rfl⟩ := hr
    have hm := h.main
    simp only [MainInv, hpc] at hm
    exact ⟨hm.1.source, by rw [if_neg hlt]; exact h.stdout, hm.2.2⟩

theorem Inv.writers (h : Inv v s) {p : ℕ} (hp : s.Writers p) :
    (s.stage (p + 1)).pc = .unborn ∧ ¬ ∃ q, s.pc = .running q := by
  rcases h.cases with ⟨hno, l, hsp⟩ | ⟨i, r, w, hpi, hafter, hrun, hstage⟩
  · rcases hp with ⟨-, hold⟩ | ⟨j, hj, -⟩
    · exact absurd hold (hno p)
    · rw [hsp.not_live] at hj; cases hj
  · obtain rfl : p = i := by
      rcases hp with ⟨-, fd, hfd⟩ | ⟨j, hj, hold⟩
      · exact (hpi.only fd p hfd).2
      · obtain ⟨_, _, hpc, hst⟩ := h.waiting hj
        obtain rfl := hst.2.1 p hold
        rcases hstage with ⟨l, hsp⟩ | ⟨hpc', -⟩
        · rw [hsp.not_live] at hj; cases hj
        · rw [hpc] at hpc'
          cases hpc'
          rfl
    exact ⟨hafter _ (Nat.lt_succ_self p), hrun⟩

theorem Inv.not_writers (h : Inv v s) {j : ℕ} (hs : Started v s (j + 1)) : ¬ s.Writers j := by
  intro hw
  obtain ⟨hunborn, hnot⟩ := h.writers hw
  simp only [Started] at hs
  split_ifs at hs with hlt
  · exact hs hunborn
  · exact hnot hs

theorem Runs.started {j : ℕ} {t : FdTable} {argv : List Word} (hr : Runs v s j t argv) :
    Started v s j := by
  simp only [Runs, Started] at hr ⊢
  split_ifs at hr ⊢ with hlt
  · obtain ⟨⟨p, hpc⟩, -⟩ := hr
    rw [hpc]
    nofun
  · exact hr.1

theorem pipeline_wiring (hplain : v.redirection.any = false) (hne : ∀ st ∈ v.stages, st ≠ [])
    (hs : (child W v).Reachable s) :
    (∀ j ≤ v.pipeCounter, ∀ t argv, Runs v s j t argv →
      t 0 = some (source j) ∧
      t 1 = some (if j < v.pipeCounter then .writeEnd j else .inherited 1) ∧
      v.stages[j]? = some argv) ∧
    (∀ j < v.pipeCounter, Started v s (j + 1) → ¬ s.Writers j) ∧
    ∀ j < v.pipeCounter, ∀ t argv, Runs v s (j + 1) t argv → s.channels.held j = 0 →
      Transfer W.capacity s.Writers t s.channels .readEof s.channels := by
  have h := inv_reachable hplain hne hs
  refine ⟨fun j hj t argv hr => h.runs hj hr, fun j _ hstart => h.not_writers hstart,
    fun j hj t argv hr hheld => ?_⟩
  exact .eofPipe (h.runs hj hr).1 hheld (h.not_writers hr.started)

section Sample

def catPipe : ArgVector := .ofWords [['a'], bar, ['b']] (by decide)

def idle : World Unit := ⟨fun _ => (), fun _ _ _ => True, true, 1⟩

def bootState : State σ where
  pc := .start
  table := fun fd => if fd ∈ ({0, 1, 2} : Finset ℕ) then some (.inherited fd) else none
  tempargs := fun _ => none
  nextPipe := 0
  fs := ⟨fun _ => none, fun _ => true⟩
  stage := fun _ => ⟨.unborn, fun _ => none, fun _ => none⟩
  channels := ⟨fun _ => 0, 0⟩
  pipes := 0
  execs := []

theorem boot_state : Boot (bootState : State σ) :=
  ⟨rfl, ⟨{0, 1, 2}, by decide, by decide, by decide, rfl⟩, rfl, fun _ => rfl, fun _ => rfl, rfl, rfl⟩

theorem last_runs : ∃ s, (child idle catPipe).Reachable s ∧ ∃ p, s.pc = .running p := by
  have h0 : (child idle catPipe).Reachable bootState := .init boot_state
  have h1 := h0.step (Step.plain rfl rfl)
  have h2 := h1.step (Step.pipe (r := 3) (w := 4) rfl (by decide) rfl rfl (by decide))
  have h3 := h2.step (Step.nextArg rfl rfl)
  have h4 := h3.step (Step.fork rfl)
  have h5 := h4.step (Step.stageMove (j := 0) rfl)
  have h6 := h5.step (Step.stageMove (j := 0) rfl)
  have h7 := h6.step (Step.stageMove (j := 0) rfl)
  have h8 := h7.step (Step.stageExec (j := 0) rfl rfl)
  have h9 := h8.step (Step.stageRun (j := 0) rfl (show idle.io () .exit () from trivial) .exit)
  have h10 := h9.step (Step.waitpid rfl rfl)
  have h11 := h10.step (Step.close rfl)
  have h12 := h11.step (Step.done rfl (by decide))
  have h13 := h12.step (Step.dupLast rfl)
  have h14 := h13.step (Step.lastArg rfl rfl)
  have h15 := h14.step (Step.lastExec rfl rfl)
  exact ⟨_, h15, _, rfl⟩

theorem last_wiring : ∃ s, (child idle catPipe).Reachable s ∧ s.table 0 = some (.readEnd 0) ∧
    s.table 1 = some (.inherited 1) ∧ ¬ s.Writers 0 := by
  obtain ⟨s, hs, hrun⟩ := last_runs
  obtain ⟨hruns, hwriters, -⟩ := pipeline_wiring (by decide) (by decide) hs
  obtain ⟨h0, h1, -⟩ := hruns 1 (by decide) s.table (words s.tempargs) ⟨hrun, rfl, rfl⟩
  exact ⟨s, hs, h0, h1, hwriters 0 (by decide) hrun⟩

end Sample

end Running
end Shell
