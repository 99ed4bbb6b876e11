import Cs345.Shell.Readings

namespace Shell
open Streams

variable {σ α : Type}

section Named
variable {v : ArgVector} {io : σ → Act α → σ → Prop} {capacity : ℕ} {prog : List Word → σ}

def named (prog : List Word → σ) (io : σ → Act α → σ → Prop) (capacity : ℕ)
    (stages : List (List Word)) : Programs σ α where
  start j := prog (stages.getD j [])
  io := io
  redirExec := true
  capacity := capacity

theorem named_start {stages : List (List Word)} {j : ℕ} (hj : j < stages.length) :
    (stages.map prog)[j]? = some ((named prog io capacity stages).start j) := by
  simp [named, hj]

theorem through_stages (v : ArgVector) (input ys : List α) :
    Through io capacity (v.stages.map prog) input ys ↔
      ∃ out, Composes io (named prog io capacity v.stages).start input v.pipeCounter out ∧
        (∀ j < v.pipeCounter, (out j).length ≤ capacity) ∧ out v.pipeCounter = ys := by
  have hlen := v.length_stages
  obtain ⟨st, more, hst⟩ := List.exists_cons_of_length_eq_add_one hlen
  have hmore : (more.map prog).length = v.pipeCounter := by
    rw [hst] at hlen
    simpa using hlen
  have hstart : ∀ j ≤ (more.map prog).length, (prog st :: more.map prog)[j]? =
      some ((named prog io capacity v.stages).start j) := by
    intro j hj
    rw [← List.map_cons, ← hst]
    exact named_start (by omega)
  have hiff : Through io capacity (prog st :: more.map prog) input ys ↔ _ :=
    through_iff _ _ hstart
  rw [hmore] at hiff
  rw [hst, List.map_cons, ← hst]
  exact hiff

end Named

section Line
variable {l : Line} {c : Command} {io : σ → Act α → σ → Prop}

theorem ofWords_words {ws : List Word} (h : ws.length < SIZE) :
    (ArgVector.ofWords ws h).words = ws :=
  wordsAt_eq ws 0 (fun j _ => by rw [Nat.zero_add]; rfl) (by omega)

theorem Command.stages_words (c : Command) : c.words.splitOn bar = c.stages :=
  List.splitOn_intercalate bar (fun st hst hbar => (c.plain st hst bar hbar).unpiped rfl) c.nonempty

theorem Line.Begins.unredirected (h : l.Begins) (hplain : l.words.any isRedir = false) :
    (l.command h).words.any isRedir = false := by
  rw [List.any_eq_false] at hplain ⊢
  intro w hw
  rcases Fields.mem_of_mem_intercalate hw with rfl | ⟨st, hst, hmem⟩
  · decide
  · rcases mem_repaired hst with rfl | ⟨hseg, -⟩
    · exact absurd hmem List.not_mem_nil
    · exact hplain w (Fields.mem_of_mem_splitOnP hseg hmem).1

def Command.vector (c : Command) (hlen : c.words.length < SIZE) : ArgVector :=
  .ofWords c.words hlen

theorem Command.vector_stages (hlen : c.words.length < SIZE) :
    (c.vector hlen).stages = c.stages := by
  rw [ArgVector.stages, vector, ofWords_words, c.stages_words]

theorem Command.vector_filled (hlen : c.words.length < SIZE) :
    ∀ st ∈ (c.vector hlen).stages, st ≠ [] := vector_stages hlen ▸ c.filled

theorem Command.vector_plain (hlen : c.words.length < SIZE) (hred : c.words.any isRedir = false) :
    (c.vector hlen).redirection.any = false := by
  rw [ArgVector.redirection_any, vector, ofWords_words, hred]

theorem Command.vector_begins (hlen : c.words.length < SIZE) : (c.vector hlen).Begins := by
  obtain ⟨st, more, heq⟩ := List.exists_cons_of_ne_nil c.nonempty
  exact ⟨st, more, (vector_stages hlen).trans heq, c.filled st (heq ▸ List.mem_cons_self)⟩

theorem Command.vector_delivered (hlen : c.words.length < SIZE) :
    (c.vector hlen).delivered = c.stages := by
  rw [ArgVector.delivered, vector_stages, repaired_full c.filled]

section Delivered
variable {v : ArgVector} {prog : List Word → σ} {capacity n : ℕ} {input ys : List α}
  (hplain : v.redirection.any = false) (hbegins : v.Begins) (heq : v.delivered = c.stages)
  (hred : c.words.any isRedir = false) (hlen : c.words.length < SIZE)

theorem through_vector : Through io n (c.stages.map prog) input ys ↔
    ∃ out, Composes io (fun j => prog (c.stages.getD j [])) input (c.vector hlen).pipeCounter out ∧
      (∀ j < (c.vector hlen).pipeCounter, (out j).length ≤ n) ∧
      out (c.vector hlen).pipeCounter = ys := by
  have hthrough : Through io n ((c.vector hlen).stages.map prog) input ys ↔ _ :=
    through_stages _ input ys
  rwa [Command.vector_stages hlen] at hthrough

include hplain hbegins heq hred hlen

theorem delivered_denotes :
    (∃ f, (flow (named prog io capacity c.stages) v input).Reachable f ∧ f.shell.pc = .exited ∧
        f.bytes.stdout = ys) ↔
      Through io capacity (c.stages.map prog) input ys := by
  rw [through_vector hlen]
  constructor
  · rintro ⟨f, hf, hx, rfl⟩
    obtain ⟨f', hf', hbytes, hpc, -⟩ := same_delivered hplain (Command.vector_plain hlen hred)
      hbegins (Command.vector_begins hlen) ((Command.vector_delivered hlen).trans heq.symm) hf
    have hout := exited_composes (Command.vector_plain hlen hred) (Command.vector_filled hlen) hf'
      (hpc.trans hx)
    rwa [hbytes] at hout
  · rintro ⟨out, hcomp, hfits, rfl⟩
    obtain ⟨f, hf, hx, hout⟩ := composes_exited (P := named prog io capacity c.stages)
      (Command.vector_plain hlen hred) (Command.vector_filled hlen) hcomp hfits
    obtain ⟨f', hf', hbytes, hpc, -⟩ := same_delivered (Command.vector_plain hlen hred) hplain
      (Command.vector_begins hlen) hbegins (heq.trans (Command.vector_delivered hlen).symm) hf
    exact ⟨f', hf', hpc.trans hx, by rw [hbytes, hout]⟩

theorem delivered_unread (hun : Unreading io (prog (c.stages.getD 0 []))) {f : Flow σ α}
    (hf : (flow (named prog io capacity c.stages) v input).Reachable f) :
    f.bytes.stdin = .fresh input := by
  obtain ⟨f', hf', hbytes, -⟩ := same_delivered hplain (Command.vector_plain hlen hred)
    hbegins (Command.vector_begins hlen) ((Command.vector_delivered hlen).trans heq.symm) hf
  rw [← hbytes]
  exact stdin_unread (P := named prog io capacity c.stages) (Command.vector_plain hlen hred)
    (Command.vector_filled hlen) hun hf'

end Delivered

theorem line_denotes (h : Reads l c) (hplain : l.words.any isRedir = false)
    (hlen : c.words.length < SIZE) (prog : List Word → σ) (capacity : ℕ) (args : Args) :
    ∃ p, ∃ hp : parseArguments l.text args false false = some p, ∀ input ys,
      (∃ f, (flow (named prog io capacity c.stages) (Parsed.vector hp) input).Reachable f ∧
        f.shell.pc = .exited ∧ f.bytes.stdout = ys) ↔
      Through io capacity (c.stages.map prog) input ys := by
  obtain ⟨p, hp, hp1, hp2, hp3⟩ := h.vector hplain args
  obtain ⟨hbegins, rfl⟩ := h.command
  exact ⟨p, hp, fun _ _ => delivered_denotes hp1 hp2 hp3 (hbegins.unredirected hplain) hlen⟩

end Line

section Order
variable {W : World σ} {v : ArgVector} {s s' : State σ} {n : ℕ}

def execed (st : List Word) : Bool := st.head? ≠ some history

def Phase.begun : Phase σ → Bool
  | .before => false
  | _ => true

structure Logged (v : ArgVector) (s : State σ) (n : ℕ) : Prop where
  begun : ∀ j ≤ v.pipeCounter, (s.phase v j).begun = true ↔ j < n
  execs : s.execs = (v.stages.take n).filter execed

theorem execLog_eq {t : Args} {cmd : Word} (hcmd : t 0 = some cmd) :
    execLog t cmd = [words t].filter execed := by
  have hhead : (words t).head? = some cmd := (words_head t).trans hcmd
  by_cases h : cmd = history
  · simp [execLog, execed, hhead, h]
  · simp [execLog, execed, hhead, h]

theorem Logged.exec (h : Logged v s n) {j : ℕ} {t : Args} {cmd : Word} (hj : j ≤ v.pipeCounter)
    (hst : v.stages[j]? = some (words t)) (hcmd : t 0 = some cmd)
    (hnot : (s.phase v j).begun = false) (hbefore : ∀ l < j, (s.phase v l).begun = true)
    (hnow : (s'.phase v j).begun = true)
    (hsame : ∀ l ≤ v.pipeCounter, l ≠ j → (s'.phase v l).begun = (s.phase v l).begun)
    (hexecs : s'.execs = s.execs ++ execLog t cmd) : Logged v s' (j + 1) := by
  have hn : n = j := by
    have hle : n ≤ j := by
      by_contra hlt
      rw [(h.begun j hj).mpr (Nat.lt_of_not_le hlt)] at hnot
      cases hnot
    refine Nat.le_antisymm hle (Nat.le_of_not_lt fun hlt => ?_)
    have := (h.begun n (hle.trans hj)).mp (hbefore n hlt)
    omega
  subst hn
  refine ⟨fun l hl => ?_, ?_⟩
  · by_cases hln : l = n
    · subst hln
      exact iff_of_true hnow (Nat.lt_succ_self l)
    · rw [hsame l hl hln, h.begun l hl]
      omega
  · rw [hexecs, h.execs, execLog_eq hcmd, ← List.filter_append, List.take_add_one, hst]
    rfl

theorem Logged.keep (h : Logged v s n) (hsame : ∀ j, (s'.phase v j).begun = (s.phase v j).begun)
    (hexecs : s'.execs = s.execs) : Logged v s' n :=
  ⟨fun j hj => by rw [hsame j]; exact h.begun j hj, hexecs.trans h.execs⟩

theorem begun_before {pc : StagePc σ} (h : pc.preparing = true) : pc.phase.begun = false := by
  rw [preparing_phase h]
  rfl

theorem logged_step {a : Actor} (hplain : v.redirection.any = false) (hi : Inv v s)
    (h : Logged v s n) (hstep : Step W v s a s') : ∃ m, Logged v s' m := by
  have hm := hi.main
  simp only [MainInv] at hm
  have hmain {pc : MainPc σ} {t : State σ} (hs : s.pc = pc) (hstage : t.stage = s.stage)
      (hpc : t.pc.phase.begun = pc.phase.begun) (hexecs : t.execs = s.execs) :
      ∃ m, Logged v t m := by
    refine ⟨n, h.keep (fun j => ?_) hexecs⟩
    simp only [State.phase, hstage, hs]
    split_ifs
    · rfl
    · exact hpc
  have hstage {j : ℕ} {st : Stage σ} {t : State σ}
      (ht : t.stage = Function.update s.stage j st) (hpc : t.pc = s.pc)
      (hst : st.pc.phase.begun = (s.stage j).pc.phase.begun) (hexecs : t.execs = s.execs) :
      ∃ m, Logged v t m := by
    refine ⟨n, h.keep (fun l => ?_) hexecs⟩
    simp only [State.phase, ht, hpc]
    split_ifs
    · by_cases hl : l = j
      · subst hl
        rw [Function.update_self, hst]
      · rw [Function.update_of_ne hl]
    · rfl
  cases hstep with
  | redirect _ hany _ => rw [hplain] at hany; cases hany
  | redirExec hpc => rw [hpc] at hm; exact hm.elim
  | plain hpc _ => exact hmain hpc rfl rfl rfl
  | pipe hpc _ _ _ _ => exact hmain hpc rfl rfl rfl
  | nextArg hpc _ => exact hmain hpc rfl rfl rfl
  | @fork i inn r w hpc =>
    refine ⟨n, h.keep (fun l => ?_) rfl⟩
    simp only [State.phase, hpc]
    split_ifs
    · by_cases hl : l = i
      · subst hl
        rw [Function.update_self, hi.fork_phase hpc]
        rfl
      · rw [Function.update_of_ne hl]
    · rfl
  | waitpid hpc _ => exact hmain hpc rfl rfl rfl
  | close hpc => exact hmain hpc rfl rfl rfl
  | done hpc _ => exact hmain hpc rfl rfl rfl
  | dupLast hpc => exact hmain hpc rfl rfl rfl
  | lastArg hpc _ => exact hmain hpc rfl rfl rfl
  | @lastExec cmd hpc hcmd =>
    rw [hpc] at hm
    obtain ⟨-, hsp, hst⟩ := hm
    refine ⟨_, h.exec (Nat.le_refl _) hst hcmd ?_ (fun l hl => ?_) ?_ (fun l hl hne => ?_) rfl⟩
    · rw [phase_main, hpc]
      rfl
    · rw [phase_stage hl, hsp.before l hl]
      rfl
    · rw [phase_main]
      rfl
    · have hlt : l < v.pipeCounter := Nat.lt_of_le_of_ne hl hne
      rw [phase_stage hlt, phase_stage hlt]
  | @run p p' act c hpc _ _ =>
    refine hmain hpc rfl ?_ rfl
    by_cases hact : act = .exit
    · simp only [hact, if_true]
      rfl
    · simp only [hact, if_false]
      rfl
  | @stageMove j st hst =>
    obtain ⟨hold, hnew⟩ := move_preparing hst
    exact hstage rfl rfl (by rw [begun_before hold, begun_before hnew]) rfl
  | @stageExec j cmd hpc hcmd =>
    obtain ⟨r, w, hwait, hst, -⟩ := hi.waiting (j := j) (by rw [hpc]; rfl)
    simp only [hwait] at hm
    have hlt : j < v.pipeCounter := hm.1.lt
    refine ⟨_, h.exec (Nat.le_of_lt hlt) hst hcmd ?_ (fun l hl => ?_) ?_ (fun l hl hne => ?_) rfl⟩
    · rw [phase_stage hlt, hpc]
      rfl
    · rw [phase_stage (hl.trans hlt), hm.2.2.1 l hl]
      rfl
    · rw [phase_stage hlt]
      dsimp only
      rw [Function.update_self]
      rfl
    · simp only [State.phase]
      rw [Function.update_of_ne hne]
  | @stageRun j p p' act c hpc _ _ =>
    refine hstage rfl rfl ?_ rfl
    rw [hpc]
    by_cases hact : act = .exit
    · simp only [hact, if_true]
      rfl
    · simp only [hact, if_false]
      rfl

theorem execs_in_order (hplain : v.redirection.any = false) (hne : ∀ st ∈ v.stages, st ≠ [])
    (hs : (child W v).Reachable s) :
    s.execs <+: v.stages.filter execed ∧ (s.pc = .exited → s.execs = v.stages.filter execed) := by
  have hlog : ∃ m, Logged v s m := by
    induction hs with
    | @init s hboot =>
      refine ⟨0, fun j _ => ?_, hboot.execs⟩
      simp only [State.phase, hboot.pc, hboot.unborn j]
      split_ifs <;> simp [StagePc.phase, MainPc.phase, Phase.begun]
    | step hr hstep ih =>
      obtain ⟨m, hm⟩ := ih
      exact logged_step hplain (inv_reachable hplain hne hr) hm hstep
  obtain ⟨m, hm⟩ := hlog
  refine ⟨hm.execs ▸ (List.take_prefix m v.stages).filter execed, fun hx => ?_⟩
  have hlt : v.pipeCounter < m := by
    refine (hm.begun _ (Nat.le_refl _)).mp ?_
    rw [phase_main, hx]
    rfl
  rw [hm.execs, List.take_of_length_le (v.length_stages.trans_le hlt)]

end Order

section Sample

theorem gap_line_copies : ∃ p, ∃ hp : parseArguments gapLine.text (fun _ => none) false false = some p,
    ∃ f, (flow (named (fun _ => Copier.ready) Copier.Act 2 gapCommand.stages) (Parsed.vector hp)
      [true, false]).Reachable f ∧ f.shell.pc = .exited ∧ f.bytes.stdout = [true, false] := by
  have hlen : gapCommand.words.length < SIZE := by
    rw [Command.words, gap_stages]
    decide
  obtain ⟨p, hp, hiff⟩ := @line_denotes Copier Bool gapLine gapCommand Copier.Act
    (gap_begins.reads (by decide)) (by decide) hlen (fun _ => .ready) 2 fun _ => none
  refine ⟨p, hp, (hiff _ _).mpr ?_⟩
  rw [gap_stages]
  exact ⟨_, copier_copies _, by decide, _, copier_copies _, by decide, copier_copies _⟩

theorem both_execed : ∃ s, (child idle catPipe).Reachable s ∧ s.execs = [[['a']], [['b']]] := by
  obtain ⟨s, hs, p, hpc⟩ := last_runs
  have hexit := hs.step (Step.run hpc (show idle.io p .exit () from trivial) .exit)
  exact ⟨_, hexit, (execs_in_order (by decide) (by decide) hexit).2 rfl⟩

end Sample

end Shell
