import Cs345.Shell.Commands
import Cs345.Shell.Delivery

namespace Shell
open Streams

variable {σ α : Type} {v v' : ArgVector}

section Supplies

def Supplies (v : ArgVector) (t : Args) (c : ℕ) (rest : List (List Word)) : Prop :=
  rest ≠ [] → c ≤ v.numArgs ∧ rest <+: repaired (words t) ((wordsAt v.args c).splitOn bar)

variable {t : Args} {c : ℕ} {st : List Word} {rest : List (List Word)}

theorem Supplies.next (h : Supplies v t c (st :: rest)) :
    ∃ t' c', nextArg v.args t c = some (t', c') ∧ words t' = st ∧ Supplies v t' c' rest := by
  obtain ⟨hc, hpre⟩ := h (List.cons_ne_nil st rest)
  cases hsplit : (wordsAt v.args c).splitOn bar with
  | nil => exact absurd hsplit (List.splitOn_ne_nil bar _)
  | cons seg more =>
    rw [hsplit] at hpre
    by_cases hseg : seg = []
    · subst hseg
      obtain ⟨rfl, hrest⟩ := List.cons_prefix_cons.mp hpre
      refine ⟨t, c, nextArg_empty hc hsplit, rfl, fun _ => ⟨hc, ?_⟩⟩
      rw [hsplit]
      have hmap : more.map (fun _ => words t) <+: words t :: more.map fun _ => words t := by
        rw [List.map_const', ← List.replicate_succ, List.replicate_succ']
        exact List.prefix_append _ _
      exact hrest.trans hmap
    · rw [repaired_cons hseg] at hpre
      obtain ⟨rfl, hrest⟩ := List.cons_prefix_cons.mp hpre
      obtain ⟨t', hnext, hwords, hgo⟩ := nextArg_spec t hc hsplit hseg
      refine ⟨t', _, hnext, hwords, fun hne => ?_⟩
      have hmore : more ≠ [] := by
        rintro rfl
        exact hne (List.prefix_nil.mp hrest)
      obtain ⟨hc', hsplit'⟩ := hgo hmore
      exact ⟨hc', by rw [hsplit', hwords]; exact hrest⟩

def ArgVector.delivered (v : ArgVector) : List (List Word) := repaired [] v.stages

def ArgVector.Begins (v : ArgVector) : Prop := ∃ seg more, v.stages = seg :: more ∧ seg ≠ []

theorem supplies_first (h : v.Begins) (t : Args) : Supplies v t 0 v.delivered := by
  obtain ⟨seg, more, heq, hseg⟩ := h
  refine fun _ => ⟨Nat.zero_le _, ?_⟩
  have hsplit : (wordsAt v.args 0).splitOn bar = seg :: more := heq
  rw [ArgVector.delivered, heq, hsplit, repaired_cons hseg, repaired_cons hseg]

theorem length_delivered (v : ArgVector) : v.delivered.length = v.pipeCounter + 1 :=
  (length_repaired _ _).trans v.length_stages

end Supplies

section Alike

def MainPc.Owes (k : ℕ) (pc : MainPc σ) (n : ℕ) : Prop :=
  match pc with
  | .start => n = k + 1
  | .redirExec => False
  | .loop i _ => i ≤ k ∧ i + n = k + 1
  | .piped i _ _ _ => i < k ∧ i + n = k + 1
  | .ready i _ _ _ => i < k ∧ i + n = k
  | .waiting i _ _ => i < k ∧ i + n = k
  | .closing i _ _ => i < k ∧ i + n = k
  | .dupLast _ => n = 1
  | .lastArg => n = 1
  | _ => n = 0

structure Stage.Alike (st st' : Stage σ) : Prop where
  pc : st'.pc = st.pc
  table : st'.table = st.table
  words : words st'.tempargs = words st.tempargs

structure State.Alike (v v' : ArgVector) (s s' : State σ) : Prop where
  same : s' = { s with tempargs := s'.tempargs, nextPipe := s'.nextPipe, stage := s'.stage }
  words : Shell.words s'.tempargs = Shell.words s.tempargs
  stage : ∀ j, (s.stage j).Alike (s'.stage j)
  supply : ∃ rest, s.pc.Owes v.pipeCounter rest.length ∧ Supplies v s.tempargs s.nextPipe rest ∧
    Supplies v' s'.tempargs s'.nextPipe rest

theorem Stage.Alike.update {stage stage' : ℕ → Stage σ} {j : ℕ} {st st' : Stage σ}
    (h : ∀ l, (stage l).Alike (stage' l)) (hst : st.Alike st') (l : ℕ) :
    (Function.update stage j st l).Alike (Function.update stage' j st' l) := by
  by_cases hl : l = j
  · subst hl
    rw [Function.update_self, Function.update_self]
    exact hst
  · rw [Function.update_of_ne hl, Function.update_of_ne hl]
    exact h l

theorem move_keeps {st u : Stage σ} (h : st.move = some u) : u.tempargs = st.tempargs := by
  rcases Stage.move_cases h with ⟨_, _, -, ⟨-, rfl⟩ | ⟨-, rfl⟩⟩ | ⟨_, _, -, rfl⟩ |
    ⟨_, -, ⟨-, rfl⟩ | ⟨-, rfl⟩⟩ | ⟨_, -, rfl⟩
  all_goals rfl

theorem move_frame (st : Stage σ) (t : Args) : ({ st with tempargs := t } : Stage σ).move =
    st.move.map fun u => { u with tempargs := t } := by
  obtain ⟨pc, table, tempargs⟩ := st
  cases pc with
  | dupIn inn out => by_cases h : inn = 0 <;> simp [Stage.move, h]
  | dupOut out => by_cases h : out = 1 <;> simp [Stage.move, h]
  | _ => rfl

theorem Stage.Alike.move {st st' u : Stage σ} (h : st.Alike st') (hm : st.move = some u) :
    ∃ u', st'.move = some u' ∧ u.Alike u' := by
  have heq : st' = { st with tempargs := st'.tempargs } := by
    rw [← h.pc, ← h.table]
  refine ⟨{ u with tempargs := st'.tempargs }, ?_, rfl, rfl, ?_⟩
  · rw [heq, move_frame, hm]
    rfl
  · rw [move_keeps hm]
    exact h.words

variable {W : World σ} {s s' t : State σ}

theorem State.Alike.pc_eq (h : s.Alike v v' s') : s'.pc = s.pc := by rw [h.same]

theorem State.Alike.table_eq (h : s.Alike v v' s') : s'.table = s.table := by rw [h.same]

theorem State.Alike.writers (h : s.Alike v v' s') : s'.Writers = s.Writers := by
  funext p
  simp only [State.Writers, h.pc_eq, h.table_eq, (h.stage _).pc, (h.stage _).table]

theorem execLog_alike {t t' : Args} (h : words t' = words t) (cmd : Word) :
    execLog t' cmd = execLog t cmd := by
  rw [execLog, execLog, h]

theorem first_alike {t t' : Args} {cmd : Word} (h : words t' = words t) (hcmd : t 0 = some cmd) :
    t' 0 = some cmd := by
  rw [← words_head t', h, words_head, hcmd]

theorem alike_step {a : Actor} (hplain : v.redirection.any = false)
    (hplain' : v'.redirection.any = false) (hcount : v'.pipeCounter = v.pipeCounter)
    (h : s.Alike v v' s') (hstep : Step W v s a t) :
    ∃ t', Step W v' s' a t' ∧ t.Alike v v' t' := by
  have hwriters := h.writers
  obtain ⟨hsame, hwords, hstage, rest, howes, hs, hs'⟩ := h
  generalize s'.tempargs = tempargs' at *
  generalize s'.nextPipe = nextPipe' at *
  generalize s'.stage = stage' at *
  subst hsame
  cases hstep with
  | redirect _ hany _ => rw [hplain] at hany; cases hany
  | redirExec hpc => rw [hpc] at howes; exact howes.elim
  | plain hpc _ =>
    rw [hpc] at howes
    exact ⟨_, .plain hpc hplain', rfl, hwords, hstage, rest,
      ⟨Nat.zero_le _, (Nat.zero_add _).trans howes⟩, hs, hs'⟩
  | pipe hpc hi hr hw hrw =>
    rw [hpc] at howes
    exact ⟨_, .pipe hpc (hcount ▸ hi) hr hw hrw, rfl, hwords, hstage, rest, ⟨hi, howes.2⟩, hs, hs'⟩
  | @nextArg i inn r w c t hpc hnext =>
    rw [hpc] at howes
    obtain ⟨hi, hlen⟩ := howes
    cases rest with
    | nil => simp at hlen; omega
    | cons st rest =>
      obtain ⟨u, d, hu, hst, hs⟩ := hs.next
      obtain ⟨u', d', hu', hst', hs'⟩ := hs'.next
      cases hu.symm.trans hnext
      exact ⟨_, .nextArg hpc hu', rfl, hst'.trans hst.symm, hstage, rest,
        ⟨hi, by simp at hlen; omega⟩, hs, hs'⟩
  | fork hpc =>
    rw [hpc] at howes
    exact ⟨_, .fork hpc, rfl, hwords, Stage.Alike.update hstage ⟨rfl, rfl, hwords⟩, rest, howes,
      hs, hs'⟩
  | @waitpid i r w hpc hexit =>
    rw [hpc] at howes
    exact ⟨_, .waitpid hpc ((hstage i).pc.trans hexit), rfl, hwords, hstage, rest, howes, hs, hs'⟩
  | close hpc =>
    rw [hpc] at howes
    obtain ⟨hi, hlen⟩ := howes
    exact ⟨_, .close hpc, rfl, hwords, hstage, rest, ⟨hi, by omega⟩, hs, hs'⟩
  | done hpc hi =>
    rw [hpc] at howes
    obtain ⟨hle, hlen⟩ := howes
    exact ⟨_, .done hpc (hcount ▸ hi), rfl, hwords, hstage, rest,
      show rest.length = 1 by omega, hs, hs'⟩
  | dupLast hpc =>
    rw [hpc] at howes
    exact ⟨_, .dupLast hpc, rfl, hwords, hstage, rest, howes, hs, hs'⟩
  | @lastArg c t hpc hnext =>
    rw [hpc] at howes
    obtain ⟨st, rfl⟩ := List.length_eq_one_iff.mp howes
    obtain ⟨u, d, hu, hst, hs⟩ := hs.next
    obtain ⟨u', d', hu', hst', hs'⟩ := hs'.next
    cases hu.symm.trans hnext
    exact ⟨_, .lastArg hpc hu', rfl, hst'.trans hst.symm, hstage, [], rfl, hs, hs'⟩
  | lastExec hpc hcmd =>
    rw [hpc] at howes
    refine ⟨_, .lastExec hpc (first_alike hwords hcmd), ?_, hwords, hstage, rest, howes, hs, hs'⟩
    dsimp only
    rw [execLog_alike hwords, hcount]
  | @run p p' act c hpc hio htransfer =>
    rw [hpc] at howes
    refine ⟨_, .run hpc hio (hwriters ▸ htransfer), rfl, hwords, hstage, rest, ?_, hs, hs'⟩
    dsimp only
    split_ifs
    · exact howes
    · exact howes
  | @stageMove j st hst =>
    obtain ⟨st', hst', halike⟩ := (hstage j).move hst
    exact ⟨_, .stageMove hst', rfl, hwords, Stage.Alike.update hstage halike, rest, howes, hs, hs'⟩
  | @stageExec j cmd hpc hcmd =>
    have hj := hstage j
    refine ⟨_, .stageExec (hj.pc.trans hpc) (first_alike hj.words hcmd), ?_, hwords,
      Stage.Alike.update hstage ⟨rfl, hj.table, hj.words⟩, rest, howes, hs, hs'⟩
    dsimp only
    rw [execLog_alike hj.words]
  | @stageRun j p p' act c hpc hio htransfer =>
    have hj := hstage j
    refine ⟨_, .stageRun (hj.pc.trans hpc) hio ?_, rfl, hwords,
      Stage.Alike.update hstage ⟨rfl, hj.table, hj.words⟩, rest, howes, hs, hs'⟩
    rw [hwriters]
    exact hj.table ▸ htransfer

theorem State.Alike.symm (hcount : v'.pipeCounter = v.pipeCounter) (h : s.Alike v v' s') :
    s'.Alike v' v s := by
  obtain ⟨hsame, hwords, hstage, rest, howes, hs, hs'⟩ := h
  have hpc : s'.pc = s.pc := by rw [hsame]
  refine ⟨?_, hwords.symm, fun j => ?_, rest, by rwa [hpc, hcount], hs', hs⟩
  · rw [hsame]
  · obtain ⟨h1, h2, h3⟩ := hstage j
    exact ⟨h1.symm, h2.symm, h3.symm⟩

end Alike

section Flows
variable {P : Programs σ α} {input : List α} {f f' g : Flow σ α} {a : Actor}

structure Flow.Alike (v v' : ArgVector) (f f' : Flow σ α) : Prop where
  shell : f.shell.Alike v v' f'.shell
  bytes : f'.bytes = f.bytes

theorem alike_flow (hplain : v.redirection.any = false) (hplain' : v'.redirection.any = false)
    (hcount : v'.pipeCounter = v.pipeCounter) (h : f.Alike v v' f')
    (hstep : FlowStep P v f a g) : ∃ g', FlowStep P v' f' a g' ∧ g.Alike v v' g' := by
  obtain ⟨s', d'⟩ := f'
  obtain ⟨hs, rfl⟩ := h
  have hwriters : s'.Writers = f.shell.Writers := hs.writers
  have hpc : s'.pc = f.shell.pc := hs.pc_eq
  have htable : s'.table = f.shell.table := hs.table_eq
  cases hstep with
  | shell hq hstep =>
    obtain ⟨t', ht', halike⟩ := alike_step hplain hplain' hcount hs hstep
    refine ⟨⟨t', f.bytes⟩, .shell ?_ ht', halike, rfl⟩
    cases a with
    | main => exact fun p hp => hq p (hpc.symm.trans hp)
    | stage j => exact fun p hp => hq p ((hs.stage j).pc.symm.trans hp)
  | @run p q act d hrun hio hmoves =>
    have hmoves' : Moves P.capacity s'.Writers s'.table f.bytes act d := by
      rw [hwriters, htable]
      exact hmoves
    refine ⟨_, .run (hpc.trans hrun) hio hmoves', ⟨?_, hs.words, hs.stage, ?_⟩, rfl⟩
    · rw [hs.same]
    · obtain ⟨rest, howes, hsup⟩ := hs.supply
      rw [hrun] at howes
      refine ⟨rest, ?_, hsup⟩
      dsimp only
      split_ifs
      · exact howes
      · exact howes
  | @stageRun j p q act d hrun hio hmoves =>
    have hj := hs.stage j
    have hmoves' : Moves P.capacity s'.Writers (s'.stage j).table f.bytes act d := by
      rw [hwriters, hj.table]
      exact hmoves
    refine ⟨_, .stageRun (hj.pc.trans hrun) hio hmoves', ⟨?_, hs.words,
      Stage.Alike.update hs.stage ⟨rfl, hj.table, hj.words⟩, hs.supply⟩, rfl⟩
    rw [hs.same]

theorem Flow.Alike.symm (hcount : v'.pipeCounter = v.pipeCounter) (h : f.Alike v v' f') :
    f'.Alike v' v f :=
  ⟨h.shell.symm hcount, h.bytes.symm⟩

theorem alike_stuck (hplain : v.redirection.any = false) (hplain' : v'.redirection.any = false)
    (hcount : v'.pipeCounter = v.pipeCounter) (h : f.Alike v v' f')
    (hstuck : (flow P v' input).Stuck f') : (flow P v input).Stuck f := by
  rintro a ⟨g, hstep⟩
  obtain ⟨g', hstep', -⟩ := alike_flow hplain hplain' hcount h hstep
  exact hstuck a ⟨g', hstep'⟩

theorem boot_alike (hb : v.Begins) (hb' : v'.Begins) (heq : v'.delivered = v.delivered)
    (h : FlowBoot input f) : f.Alike v v' f := by
  refine ⟨⟨rfl, rfl, fun j => ⟨rfl, rfl, rfl⟩, v.delivered, ?_, ?_, ?_⟩, rfl⟩
  · rw [h.shell.pc]
    exact length_delivered v
  · rw [h.shell.nextPipe]
    exact supplies_first hb _
  · rw [h.shell.nextPipe, ← heq]
    exact supplies_first hb' _

theorem same_delivered (hplain : v.redirection.any = false) (hplain' : v'.redirection.any = false)
    (hb : v.Begins) (hb' : v'.Begins) (heq : v'.delivered = v.delivered)
    (hf : (flow P v input).Reachable f) :
    ∃ f', (flow P v' input).Reachable f' ∧ f'.bytes = f.bytes ∧ f'.shell.pc = f.shell.pc ∧
      f'.shell.execs = f.shell.execs ∧
      ((flow P v' input).Stuck f' ↔ (flow P v input).Stuck f) := by
  have hcount : v'.pipeCounter = v.pipeCounter := by
    have := congrArg List.length heq
    rw [length_delivered, length_delivered] at this
    exact Nat.succ_injective this
  have hinit : ∀ f, (flow P v input).init f →
      ∃ f', (flow P v' input).init f' ∧ f.Alike v v' f' :=
    fun f h => ⟨f, h, boot_alike hb hb' heq h⟩
  have hstep : ∀ f a g f', f.Alike v v' f' → (flow P v input).step f a g →
      ∃ g', (flow P v' input).step f' a g' ∧ g.Alike v v' g' :=
    fun _ _ _ _ halike hstep => alike_flow hplain hplain' hcount halike hstep
  obtain ⟨f', hf', halike⟩ := hf.simulate hinit hstep
  refine ⟨f', hf', halike.bytes, halike.shell.pc_eq, by rw [halike.shell.same],
    fun h => ?_, fun h => ?_⟩
  · exact alike_stuck hplain hplain' hcount halike h
  · exact alike_stuck hplain' hplain hcount.symm (halike.symm hcount) h

end Flows

section Lines
variable {P : Programs σ α} {l l' : Line} {c : Command}

theorem parsed_vector (hdelims : delims l.text + 1 < SIZE) (args : Args) :
    ∃ p, ∃ hp : parseArguments l.text args false false = some p,
      (Parsed.vector hp).words = l.words := by
  obtain ⟨p, hp, hkept⟩ := parseArguments_short hdelims args
  exact ⟨p, hp, ((tokenized_of_kept hkept).understood (Parsed.vector hp).lt_size).words⟩

theorem Reads.vector (h : Reads l c) (hplain : l.words.any isRedir = false) (args : Args) :
    ∃ p, ∃ hp : parseArguments l.text args false false = some p,
      (Parsed.vector hp).redirection.any = false ∧ (Parsed.vector hp).Begins ∧
        (Parsed.vector hp).delivered = c.stages := by
  obtain ⟨q, hq, -⟩ := h args
  obtain ⟨p, hp, hwords⟩ := parsed_vector (parses_iff.mp (Option.isSome_of_eq_some hq)) args
  obtain ⟨hbegins, rfl⟩ := h.command
  have hstages : (Parsed.vector hp).stages = l.segments := congrArg (List.splitOn bar) hwords
  refine ⟨p, hp, ?_, ?_, ?_⟩
  · rw [ArgVector.redirection_any, hwords, hplain]
  · rw [ArgVector.Begins, hstages]
    exact hbegins.segments
  · rw [ArgVector.delivered, hstages]
    rfl

theorem same_reading (h : Reads l c) (h' : Reads l' c) (hplain : l.words.any isRedir = false)
    (hplain' : l'.words.any isRedir = false) (args args' : Args) :
    ∃ p p', ∃ hp : parseArguments l.text args false false = some p,
      ∃ hp' : parseArguments l'.text args' false false = some p',
      ∀ input f, (flow P (Parsed.vector hp) input).Reachable f →
        ∃ f', (flow P (Parsed.vector hp') input).Reachable f' ∧ f'.bytes = f.bytes ∧
          f'.shell.pc = f.shell.pc ∧ f'.shell.execs = f.shell.execs ∧
          ((flow P (Parsed.vector hp') input).Stuck f' ↔ (flow P (Parsed.vector hp) input).Stuck f) := by
  obtain ⟨p, hp, hp1, hp2, hp3⟩ := h.vector hplain args
  obtain ⟨p', hp', hp1', hp2', hp3'⟩ := h'.vector hplain' args'
  refine ⟨p, p', hp, hp', fun input f hf => ?_⟩
  exact same_delivered hp1 hp1' hp2 hp2' (hp3'.trans hp3.symm) hf

theorem repeated_stages {p : Parsed}
    (hp : parseArguments gapCommand.line.text (fun _ => none) false false = some p) :
    (Parsed.vector hp).stages = gapCommand.stages ∧ (Parsed.vector hp).redirection.any = false := by
  obtain ⟨q, hq, hwords⟩ := parsed_vector (l := gapCommand.line) (by decide) fun _ => none
  cases hp.symm.trans hq
  constructor
  · rw [gap_stages, ArgVector.stages, hwords]
    decide
  · rw [ArgVector.redirection_any, hwords]
    decide

theorem gap_line_repeats : ∃ p, ∃ hp : parseArguments gapLine.text (fun _ => none) false false = some p,
    ∃ f, (flow (copiers 2) (Parsed.vector hp) [true]).Reachable f ∧ f.shell.pc = .exited ∧
      f.bytes.stdout = [true] := by
  obtain ⟨p, p', hp, hp', hall⟩ := same_reading (P := copiers 2) (gapCommand.reads_line (by decide))
    (gap_begins.reads (by decide)) (by decide) (by decide) (fun _ => none) fun _ => none
  obtain ⟨hstages, hplain⟩ := repeated_stages hp
  have hne : ∀ st ∈ (Parsed.vector hp).stages, st ≠ [] := by
    rw [hstages, gap_stages]
    decide
  obtain ⟨f, hf, hexit, hout⟩ := (delivers_iff (P := copiers 2) hplain hne).mpr
    ⟨fun _ => [true], fun j _ => by cases j <;> exact copier_copies _, fun _ _ => Nat.le_succ 1, rfl⟩
  obtain ⟨f', hf', hbytes, hpc, -⟩ := hall [true] f hf
  exact ⟨p', hp', f', hf', hpc.trans hexit, hbytes ▸ hout⟩

end Lines

end Shell
