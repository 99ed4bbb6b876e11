import Cs345.Shell.Blocking
import Cs345.Streams

namespace Shell
open Streams

variable {σ α : Type}

structure Programs (σ α : Type) where
  start : ℕ → σ
  io : σ → Act α → σ → Prop
  redirExec : Bool
  capacity : ℕ

def kind : Act α → Io
  | .read _ => .readByte
  | .eof => .readEof
  | .write _ => .writeByte
  | .exit => .exit

theorem kind_exit (a : Act α) : kind a = .exit ↔ a = .exit := by
  cases a <;> simp [kind]

def Programs.world (P : Programs σ α) : World σ where
  start := P.start
  io := fun p i q => ∃ a, P.io p a q ∧ kind a = i
  redirExec := P.redirExec
  capacity := P.capacity

section Bytes

structure Bytes (α : Type) where
  pipe : ℕ → Channel α
  stdin : Channel α
  stdout : List α

namespace Bytes

def boot (input : List α) : Bytes α := ⟨fun _ => .fresh [], .fresh input, []⟩

def channels (d : Bytes α) : Channels where
  held p := (d.pipe p).unread.length
  stdin := d.stdin.unread.length

def given (d : Bytes α) : ℕ → Channel α
  | 0 => d.stdin
  | j + 1 => d.pipe j

end Bytes

inductive Moves (capacity : ℕ) (Writers : ℕ → Prop) (t : FdTable) (d : Bytes α) :
    Act α → Bytes α → Prop
  | readPipe {p : ℕ} {x : α} {xs : List α} : t 0 = some (.readEnd p) →
      (d.pipe p).unread = x :: xs →
      Moves capacity Writers t d (.read x)
        { d with pipe := Function.update d.pipe p (d.pipe p).pull }
  | readStdin {x : α} {xs : List α} : t 0 = some (.inherited 0) → d.stdin.unread = x :: xs →
      Moves capacity Writers t d (.read x) { d with stdin := d.stdin.pull }
  | eofPipe {p : ℕ} : t 0 = some (.readEnd p) → (d.pipe p).unread = [] → ¬ Writers p →
      Moves capacity Writers t d .eof d
  | eofStdin : t 0 = some (.inherited 0) → d.stdin.unread = [] → Moves capacity Writers t d .eof d
  | writePipe {p : ℕ} {y : α} : t 1 = some (.writeEnd p) →
      (d.pipe p).unread.length < capacity →
      Moves capacity Writers t d (.write y)
        { d with pipe := Function.update d.pipe p ((d.pipe p).push y) }
  | writeStdout {y : α} : t 1 = some (.inherited 1) →
      Moves capacity Writers t d (.write y) { d with stdout := d.stdout ++ [y] }
  | exit : Moves capacity Writers t d .exit d

variable {capacity : ℕ} {Writers : ℕ → Prop} {t : FdTable} {d d' : Bytes α} {a : Act α}

theorem held_update (d : Bytes α) (p : ℕ) (c : Channel α) :
    ({ d with pipe := Function.update d.pipe p c } : Bytes α).channels =
      { d.channels with held := Function.update d.channels.held p c.unread.length } := by
  simp only [Bytes.channels, Channels.mk.injEq, and_true]
  funext q
  by_cases hq : q = p
  · subst hq
    simp
  · simp [hq]

theorem Moves.transfer (h : Moves capacity Writers t d a d') :
    Transfer capacity Writers t d.channels (kind a) d'.channels := by
  cases h with
  | @readPipe p x xs h0 hx =>
    rw [held_update, Channel.pull_unread hx]
    have hheld : d.channels.held p = xs.length + 1 := by simp [Bytes.channels, hx]
    have : Transfer capacity Writers t d.channels .readByte { d.channels with
        held := Function.update d.channels.held p (d.channels.held p - 1) } :=
      .readPipe h0 (by omega)
    rwa [hheld, Nat.add_sub_cancel] at this
  | @readStdin x xs h0 hx =>
    have hstdin : d.channels.stdin = xs.length + 1 := by simp [Bytes.channels, hx]
    have : Transfer capacity Writers t d.channels .readByte
        { d.channels with stdin := d.channels.stdin - 1 } := .readOther h0 rfl (by omega)
    rw [hstdin, Nat.add_sub_cancel] at this
    simpa [Bytes.channels, Channel.pull_unread hx, kind] using this
  | eofPipe h0 hnil hw => exact .eofPipe h0 (by simp [Bytes.channels, hnil]) hw
  | eofStdin h0 hnil => exact .eofOther h0 rfl (by simp [Bytes.channels, hnil])
  | @writePipe p y h1 hlt =>
    rw [held_update]
    have : Transfer capacity Writers t d.channels .writeByte { d.channels with
        held := Function.update d.channels.held p (d.channels.held p + 1) } := .writePipe h1 hlt
    simpa [Channel.push, Bytes.channels, kind] using this
  | writeStdout h1 => exact .writeOther h1 rfl
  | exit => exact .exit

end Bytes

section Machine

structure Flow (σ α : Type) where
  shell : State σ
  bytes : Bytes α

def Quiet (s : State σ) : Actor → Prop
  | .main => ∀ p, s.pc ≠ .running p
  | .stage j => ∀ p, (s.stage j).pc ≠ .running p

inductive FlowStep (P : Programs σ α) (v : ArgVector) : Flow σ α → Actor → Flow σ α → Prop
  | shell {f : Flow σ α} {a : Actor} {s : State σ} : Quiet f.shell a →
      Step P.world v f.shell a s → FlowStep P v f a { f with shell := s }
  | run {f : Flow σ α} {p q : σ} {a : Act α} {d : Bytes α} :
      f.shell.pc = .running p → P.io p a q →
      Moves P.capacity f.shell.Writers f.shell.table f.bytes a d →
      FlowStep P v f .main
        ⟨{ f.shell with
            pc := if kind a = .exit then .exited else .running q, channels := d.channels }, d⟩
  | stageRun {f : Flow σ α} {j : ℕ} {p q : σ} {a : Act α} {d : Bytes α} :
      (f.shell.stage j).pc = .running p → P.io p a q →
      Moves P.capacity f.shell.Writers (f.shell.stage j).table f.bytes a d →
      FlowStep P v f (.stage j)
        ⟨{ f.shell with
            stage := Function.update f.shell.stage j
              { f.shell.stage j with pc := if kind a = .exit then .exited else .running q }
            channels := d.channels }, d⟩

structure FlowBoot (input : List α) (f : Flow σ α) : Prop where
  shell : Boot f.shell
  bytes : f.bytes = .boot input
  channels : f.shell.channels = f.bytes.channels

def flow (P : Programs σ α) (v : ArgVector) (input : List α) : Machine (Flow σ α) Actor where
  init := FlowBoot input
  step := FlowStep P v

variable {P : Programs σ α} {v : ArgVector} {input : List α} {f f' : Flow σ α}

theorem quiet_channels {W : World σ} {s s' : State σ} {a : Actor} (hq : Quiet s a)
    (h : Step W v s a s') : s'.channels = s.channels := by
  cases h with
  | run hpc _ _ => exact absurd hpc (hq _)
  | stageRun hpc _ _ => exact absurd hpc (hq _)
  | _ => rfl

theorem flow_step {a : Actor} (hc : f.shell.channels = f.bytes.channels)
    (h : FlowStep P v f a f') :
    Step P.world v f.shell a f'.shell ∧ f'.shell.channels = f'.bytes.channels := by
  cases h with
  | shell hq h => exact ⟨h, (quiet_channels hq h).trans hc⟩
  | run hpc hio hm =>
    refine ⟨.run hpc ⟨_, hio, rfl⟩ ?_, rfl⟩
    rw [hc]
    exact hm.transfer
  | stageRun hpc hio hm =>
    refine ⟨.stageRun hpc ⟨_, hio, rfl⟩ ?_, rfl⟩
    rw [hc]
    exact hm.transfer

theorem flow_refines (hf : (flow P v input).Reachable f) :
    (child P.world v).Reachable f.shell ∧ f.shell.channels = f.bytes.channels := by
  induction hf with
  | init h => exact ⟨.init h.shell, h.channels⟩
  | step _ h ih =>
    obtain ⟨hstep, hc⟩ := flow_step ih.2 h
    exact ⟨ih.1.step hstep, hc⟩

end Machine

section Phases

inductive Phase (σ : Type) where
  | before
  | during (p : σ)
  | after

def StagePc.phase : StagePc σ → Phase σ
  | .running p => .during p
  | .exited => .after
  | _ => .before

def MainPc.phase : MainPc σ → Phase σ
  | .running p => .during p
  | .exited => .after
  | _ => .before

def State.phase (v : ArgVector) (s : State σ) (j : ℕ) : Phase σ :=
  if j < v.pipeCounter then (s.stage j).pc.phase else s.pc.phase

def sink (v : ArgVector) (j : ℕ) : FileEnd :=
  if j < v.pipeCounter then .writeEnd j else .inherited 1

def Bytes.result (v : ArgVector) (d : Bytes α) (j : ℕ) : List α :=
  if j < v.pipeCounter then (d.pipe j).sent else d.stdout

variable {P : Programs σ α} {v : ArgVector} {f f' : Flow σ α} {W : World σ} {s s' : State σ}

theorem phase_stage {j : ℕ} (hj : j < v.pipeCounter) : s.phase v j = (s.stage j).pc.phase :=
  if_pos hj

theorem phase_main : s.phase v v.pipeCounter = s.pc.phase := if_neg (Nat.lt_irrefl _)

theorem result_stage {d : Bytes α} {j : ℕ} (hj : j < v.pipeCounter) :
    d.result v j = (d.pipe j).sent := if_pos hj

theorem result_main {d : Bytes α} : d.result v v.pipeCounter = d.stdout :=
  if_neg (Nat.lt_irrefl _)

theorem preparing_phase {pc : StagePc σ} (h : pc.preparing = true) : pc.phase = .before := by
  cases pc <;> first | rfl | cases h

theorem Inv.before_exited (h : Inv v s) {j : ℕ} (hj : (s.stage j).pc ≠ .unborn) :
    ∀ l < j, (s.stage l).pc = .exited := by
  intro l hl
  have hspawned {i : ℕ} (hsp : Spawned s.stage i) : (s.stage l).pc = .exited := by
    rcases Nat.lt_or_ge j i with hlt | hge
    · exact hsp.before l (Nat.lt_trans hl hlt)
    · exact absurd (hsp.after j hge) hj
  rcases h.cases with ⟨-, i, hsp⟩ | ⟨i, _, _, -, hafter, -, ⟨_, hsp⟩ | ⟨-, hbefore, -⟩⟩
  · exact hspawned hsp
  · exact hspawned hsp
  · rcases Nat.lt_or_ge i j with hlt | hge
    · exact absurd (hafter j hlt) hj
    · exact hbefore l (Nat.lt_of_lt_of_le hl hge)

theorem Inv.main_spawned (h : Inv v s) (hpc : s.pc.phase ≠ .before) :
    Spawned s.stage v.pipeCounter := by
  have hm := h.main
  simp only [MainInv] at hm
  cases hpc' : s.pc with
  | running p =>
    rw [hpc'] at hm
    exact hm.2.1
  | exited =>
    rw [hpc'] at hm
    exact hm.2
  | _ =>
    rw [hpc'] at hpc
    exact absurd rfl hpc

theorem Inv.in_order (h : Inv v s) {j l : ℕ} (hj : j ≤ v.pipeCounter)
    (hphase : s.phase v j ≠ .before) (hl : l < j) : s.phase v l = .after := by
  rw [phase_stage (Nat.lt_of_lt_of_le hl hj)]
  rcases Nat.lt_or_eq_of_le hj with hlt | rfl
  · rw [phase_stage hlt] at hphase
    have hborn : (s.stage j).pc ≠ .unborn := by
      intro hu
      rw [hu] at hphase
      exact hphase rfl
    rw [h.before_exited hborn l hl]
    rfl
  · rw [phase_main] at hphase
    rw [(h.main_spawned hphase).before l hl]
    rfl

theorem Inv.fork_phase (h : Inv v s) {i inn r w : ℕ} (hpc : s.pc = .ready i inn r w) :
    (s.stage i).pc.phase = .before := by
  have hm := h.main
  simp only [MainInv, hpc] at hm
  rw [hm.2.2.1.after i (Nat.le_refl i)]
  rfl

theorem quiet_phase {a : Actor} (h : Inv v s) (hplain : v.redirection.any = false)
    (hq : Quiet s a) (hstep : Step W v s a s') (j : ℕ) :
    s'.phase v j = s.phase v j ∨
      s.phase v j = .before ∧ s'.phase v j = .during (W.start (min j v.pipeCounter)) := by
  have hm := h.main
  simp only [MainInv] at hm
  simp only [State.phase]
  split_ifs with hj
  · rw [Nat.min_eq_left (Nat.le_of_lt hj)]
    have hother {i : ℕ} {st : Stage σ} (hji : j ≠ i) :
        (Function.update s.stage i st j).pc.phase = (s.stage j).pc.phase := by
      rw [Function.update_of_ne hji]
    cases hstep with
    | @fork i inn r w hpc =>
      by_cases hji : j = i
      · subst hji
        left
        simp only [Function.update_self, h.fork_phase hpc]
        rfl
      · exact .inl (hother hji)
    | @stageMove i st hst =>
      obtain ⟨hold, hnew⟩ := move_preparing hst
      by_cases hji : j = i
      · subst hji
        left
        simp only [Function.update_self, preparing_phase hold, preparing_phase hnew]
      · exact .inl (hother hji)
    | @stageExec i cmd hpc _ =>
      by_cases hji : j = i
      · subst hji
        right
        simp only [Function.update_self, hpc]
        exact ⟨rfl, rfl⟩
      · exact .inl (hother hji)
    | stageRun hpc _ _ => exact absurd hpc (hq _)
    | _ => exact .inl rfl
  · rw [Nat.min_eq_right (Nat.not_lt.mp hj)]
    cases hstep with
    | redirect _ hany _ => rw [hplain] at hany; cases hany
    | redirExec hpc => rw [hpc] at hm; exact hm.elim
    | run hpc _ _ => exact absurd hpc (hq _)
    | stageMove _ => exact .inl rfl
    | stageExec _ _ => exact .inl rfl
    | stageRun _ _ _ => exact .inl rfl
    | lastExec hpc _ =>
      rw [hpc]
      exact .inr ⟨rfl, rfl⟩
    | plain hpc _ => rw [hpc]; exact .inl rfl
    | pipe hpc _ _ _ _ => rw [hpc]; exact .inl rfl
    | nextArg hpc _ => rw [hpc]; exact .inl rfl
    | fork hpc => rw [hpc]; exact .inl rfl
    | waitpid hpc _ => rw [hpc]; exact .inl rfl
    | close hpc => rw [hpc]; exact .inl rfl
    | done hpc _ => rw [hpc]; exact .inl rfl
    | dupLast hpc => rw [hpc]; exact .inl rfl
    | lastArg hpc _ => rw [hpc]; exact .inl rfl

def StagePc.left : StagePc σ → ℕ
  | .unborn => 7
  | .dupIn _ _ => 6
  | .closeIn _ _ => 5
  | .dupOut _ => 4
  | .closeOut _ => 3
  | .exec => 2
  | .running _ => 1
  | .exited => 0

def State.left (v : ArgVector) (s : State σ) : ℕ :=
  match s.pc with
  | .start => 20 * v.pipeCounter + 26
  | .redirExec => 20 * v.pipeCounter + 26
  | .loop i _ => 20 * (v.pipeCounter - i) + 25
  | .piped i _ _ _ => 20 * (v.pipeCounter - i) + 24
  | .ready i _ _ _ => 20 * (v.pipeCounter - i) + 23
  | .waiting i _ _ => 20 * (v.pipeCounter - i) + 10 + (s.stage i).pc.left
  | .closing i _ _ => 20 * (v.pipeCounter - i) + 9
  | .dupLast _ => 5
  | .lastArg => 4
  | .lastExec => 3
  | .running _ => 1
  | .exited => 0

theorem move_left {st st' : Stage σ} (h : st.move = some st') : st'.pc.left < st.pc.left := by
  rcases Stage.move_cases h with ⟨_, _, hpc, ⟨-, rfl⟩ | ⟨-, rfl⟩⟩ | ⟨_, _, hpc, rfl⟩ |
    ⟨_, hpc, ⟨-, rfl⟩ | ⟨-, rfl⟩⟩ | ⟨_, hpc, rfl⟩
  all_goals
    rw [hpc]
    simp only [StagePc.left]
    omega

theorem Inv.left_stage (h : Inv v s) {j : ℕ} (hj : (s.stage j).pc.live = true) (st : Stage σ)
    (c : Channels) (execs : List (List Word)) :
    State.left v { s with
        stage := Function.update s.stage j st, channels := c, execs := execs } +
      (s.stage j).pc.left = s.left v + st.pc.left := by
  obtain ⟨r, w, hpc, -⟩ := h.waiting hj
  simp only [State.left, hpc, Function.update_self]
  omega

theorem quiet_left {a : Actor} (h : Inv v s) (hplain : v.redirection.any = false)
    (hq : Quiet s a) (hstep : Step W v s a s') : s'.left v < s.left v := by
  have hm := h.main
  simp only [MainInv] at hm
  cases hstep with
  | redirect _ hany _ => rw [hplain] at hany; cases hany
  | redirExec hpc => rw [hpc] at hm; exact hm.elim
  | plain hpc _ => simp only [State.left, hpc]; omega
  | pipe hpc _ _ _ _ => simp only [State.left, hpc]; omega
  | nextArg hpc _ => simp only [State.left, hpc]; omega
  | fork hpc =>
    simp only [State.left, hpc, Function.update_self, StagePc.left]
    omega
  | waitpid hpc hx =>
    simp only [State.left, hpc, hx]
    omega
  | close hpc =>
    rw [hpc] at hm
    have := hm.1.lt
    simp only [State.left, hpc]
    omega
  | done hpc hi => simp only [State.left, hpc]; omega
  | dupLast hpc => simp only [State.left, hpc]; omega
  | lastArg hpc _ => simp only [State.left, hpc]; omega
  | lastExec hpc _ => simp only [State.left, hpc]; omega
  | run hpc _ _ => exact absurd hpc (hq _)
  | @stageMove j st hst =>
    have hlt := move_left hst
    have := h.left_stage (preparing_live (move_preparing hst).1) st s.channels s.execs
    omega
  | @stageExec j cmd hpc _ =>
    have := h.left_stage (j := j) (by rw [hpc]; rfl)
      { s.stage j with pc := .running (W.start j) } s.channels
      (s.execs ++ execLog (s.stage j).tempargs cmd)
    have hexec : (s.stage j).pc.left = 2 := by rw [hpc]; rfl
    have hrun : (StagePc.running (W.start j)).left = 1 := rfl
    dsimp only at this ⊢
    omega
  | stageRun hpc _ _ => exact absurd hpc (hq _)

structure Advances (P : Programs σ α) (v : ArgVector) (f : Flow σ α) (j : ℕ) (p : σ)
    (a : Act α) (q : σ) (f' : Flow σ α) : Prop where
  le : j ≤ v.pipeCounter
  runs : f.shell.phase v j = .during p
  io : P.io p a q
  moves : ∃ t : FdTable, t 0 = some (source j) ∧ t 1 = some (sink v j) ∧
    Moves P.capacity f.shell.Writers t f.bytes a f'.bytes
  next : f'.shell.phase v j = if kind a = .exit then .after else .during q
  others : ∀ l, l ≤ v.pipeCounter → l ≠ j → f'.shell.phase v l = f.shell.phase v l
  left : f'.shell.left v + (if kind a = .exit then 1 else 0) = f.shell.left v

theorem run_advances {p q : σ} {a : Act α} {d : Bytes α} (h : Inv v f.shell)
    (hpc : f.shell.pc = .running p) (hio : P.io p a q)
    (hmv : Moves P.capacity f.shell.Writers f.shell.table f.bytes a d) :
    Advances P v f v.pipeCounter p a q
      ⟨{ f.shell with
          pc := if kind a = .exit then .exited else .running q, channels := d.channels }, d⟩ := by
  have hm := h.main
  simp only [MainInv, hpc] at hm
  refine ⟨Nat.le_refl _, ?_, hio, ?_, ?_, fun l hl hne => ?_, ?_⟩
  · rw [phase_main, hpc]
    rfl
  · exact ⟨_, hm.1.source, h.stdout.trans (by simp [sink]), hmv⟩
  · rw [phase_main]
    split_ifs <;> rfl
  · have hlt := Nat.lt_of_le_of_ne hl hne
    rw [phase_stage hlt, phase_stage hlt]
  · simp only [State.left, hpc]
    split_ifs <;> rfl

theorem Inv.stage_ends (h : Inv v s) {j : ℕ} {p : σ} (hpc : (s.stage j).pc = .running p) :
    j < v.pipeCounter ∧ (s.stage j).table 0 = some (source j) ∧
      (s.stage j).table 1 = some (sink v j) := by
  obtain ⟨r, w, hmain, -, -, hst⟩ := h.waiting (j := j) (by rw [hpc]; rfl)
  simp only [hpc] at hst
  have hj : j < v.pipeCounter := h.live_lt (by rw [hpc]; rfl)
  exact ⟨hj, hst.1, hst.2.trans (by simp [sink, hj])⟩

theorem stageRun_advances {j : ℕ} {p q : σ} {a : Act α} {d : Bytes α} (h : Inv v f.shell)
    (hpc : (f.shell.stage j).pc = .running p) (hio : P.io p a q)
    (hmv : Moves P.capacity f.shell.Writers (f.shell.stage j).table f.bytes a d) :
    Advances P v f j p a q
      ⟨{ f.shell with
          stage := Function.update f.shell.stage j
            { f.shell.stage j with pc := if kind a = .exit then .exited else .running q }
          channels := d.channels }, d⟩ := by
  obtain ⟨hj, h0, h1⟩ := h.stage_ends hpc
  refine ⟨Nat.le_of_lt hj, ?_, hio, ⟨_, h0, h1, hmv⟩, ?_, fun l hl hne => ?_, ?_⟩
  · rw [phase_stage hj, hpc]
    rfl
  · rw [phase_stage hj]
    simp only [Function.update_self]
    split_ifs <;> rfl
  · rcases Nat.lt_or_eq_of_le hl with hlt | rfl
    · rw [phase_stage hlt, phase_stage hlt]
      simp only [Function.update_of_ne hne]
    · rw [phase_main, phase_main]
  · have := h.left_stage (j := j) (by rw [hpc]; rfl)
      { f.shell.stage j with pc := if kind a = .exit then .exited else .running q } d.channels
      f.shell.execs
    simp only [hpc] at this ⊢
    split_ifs at this ⊢ <;> simp only [StagePc.left] at this <;> omega

theorem flow_cases {a : Actor} (h : Inv v f.shell) (hstep : FlowStep P v f a f') :
    (Quiet f.shell a ∧ Step P.world v f.shell a f'.shell ∧ f'.bytes = f.bytes) ∨
      ∃ j p m q, Advances P v f j p m q f' := by
  cases hstep with
  | shell hq hs => exact .inl ⟨hq, hs, rfl⟩
  | run hpc hio hmv => exact .inr ⟨_, _, _, _, run_advances h hpc hio hmv⟩
  | stageRun hpc hio hmv => exact .inr ⟨_, _, _, _, stageRun_advances h hpc hio hmv⟩

end Phases

section Carry
variable {P : Programs σ α} {v : ArgVector} {capacity : ℕ} {Writers : ℕ → Prop} {t : FdTable}
  {d d' : Bytes α} {a : Act α} {j : ℕ}

theorem given_stdin (d : Bytes α) (c : Channel α) (l : ℕ) :
    ({ d with stdin := c } : Bytes α).given l = if l = 0 then c else d.given l := by
  cases l <;> rfl

theorem given_pipe (d : Bytes α) (p : ℕ) (c : Channel α) (l : ℕ) :
    ({ d with pipe := Function.update d.pipe p c } : Bytes α).given l =
      if l = p + 1 then c else d.given l := by
  cases l with
  | zero => rfl
  | succ l =>
    by_cases hl : l = p
    · simp [Bytes.given, hl]
    · simp [Bytes.given, hl]

theorem sink_writeEnd {p : ℕ} (h : sink v j = .writeEnd p) : j < v.pipeCounter ∧ p = j := by
  simp only [sink] at h
  split_ifs at h with hlt
  cases h
  exact ⟨hlt, rfl⟩

theorem sink_stdout (h : sink v j = .inherited 1) : ¬ j < v.pipeCounter := by
  intro hlt
  rw [sink, if_pos hlt] at h
  cases h

structure Carries (v : ArgVector) (capacity j : ℕ) (a : Act α) (d d' : Bytes α) : Prop where
  takes : Takes a (d.given j).unread (d'.given j).unread
  sent : ∀ l ≤ j, (d'.given l).sent = (d.given l).sent
  taken : ∀ l, l ≠ j → (d'.given l).taken = (d.given l).taken
  writes : d'.result v j = d.result v j ++ a.output
  others : ∀ l ≤ v.pipeCounter, l ≠ j → d'.result v l = d.result v l
  fits : j < v.pipeCounter → a.output ≠ [] → (d.pipe j).unread.length < capacity

theorem Moves.carries (h : Moves capacity Writers t d a d') (hj : j ≤ v.pipeCounter)
    (h0 : t 0 = some (source j)) (h1 : t 1 = some (sink v j)) : Carries v capacity j a d d' := by
  cases h with
  | @readPipe p x xs hp hx =>
    obtain rfl := source_eq_readEnd (Option.some.inj (h0.symm.trans hp))
    have hres (l : ℕ) : ({ d with pipe := Function.update d.pipe p (d.pipe p).pull } :
        Bytes α).result v l = d.result v l := by
      simp only [Bytes.result]
      by_cases hl : l = p <;> simp [hl]
    refine ⟨?_, fun l _ => ?_, fun l hl => ?_, ?_, fun l _ _ => hres l, by simp [Act.output]⟩
    · simp only [given_pipe, if_true, Channel.pull_unread hx]
      rw [Bytes.given, hx]
      exact .read
    · rw [given_pipe]
      split_ifs with hl
      · rw [hl, Channel.sent_pull]
        rfl
      · rfl
    · rw [given_pipe, if_neg hl]
    · rw [hres]
      simp [Act.output]
  | @readStdin x xs hp hx =>
    obtain rfl : j = 0 := by
      cases j with
      | zero => rfl
      | succ j => cases h0.symm.trans hp
    refine ⟨?_, fun l hl => ?_, fun l hl => ?_, by simp [Bytes.result, Act.output], fun l _ _ => rfl,
      by simp [Act.output]⟩
    · simp only [given_stdin, if_true, Channel.pull_unread hx]
      rw [Bytes.given, hx]
      exact .read
    · obtain rfl := Nat.le_zero.mp hl
      exact Channel.sent_pull _
    · rw [given_stdin, if_neg hl]
  | @eofPipe p hp hnil _ =>
    obtain rfl := source_eq_readEnd (Option.some.inj (h0.symm.trans hp))
    refine ⟨?_, fun l _ => rfl, fun l _ => rfl, by simp [Act.output], fun l _ _ => rfl,
      by simp [Act.output]⟩
    rw [Bytes.given, hnil]
    exact .eof
  | eofStdin hp hnil =>
    obtain rfl : j = 0 := by
      cases j with
      | zero => rfl
      | succ j => cases h0.symm.trans hp
    refine ⟨?_, fun l _ => rfl, fun l _ => rfl, by simp [Act.output], fun l _ _ => rfl,
      by simp [Act.output]⟩
    rw [Bytes.given, hnil]
    exact .eof
  | @writePipe p y hp hlt =>
    obtain ⟨hlt', rfl⟩ := sink_writeEnd (Option.some.inj (h1.symm.trans hp))
    refine ⟨?_, fun l hl => ?_, fun l hl => ?_, ?_, fun l hl hne => ?_, fun _ _ => hlt⟩
    · rw [given_pipe, if_neg (Nat.ne_of_lt (Nat.lt_succ_self p))]
      exact .write
    · rw [given_pipe, if_neg (Nat.ne_of_lt (Nat.lt_succ_of_le hl))]
    · rw [given_pipe]
      split_ifs with hlp
      · rw [hlp]
        rfl
      · rfl
    · simp [Bytes.result, hlt', Act.output]
    · simp [Bytes.result, hne]
  | @writeStdout y hp =>
    have hnot := sink_stdout (Option.some.inj (h1.symm.trans hp))
    refine ⟨.write, fun l _ => rfl, fun l _ => rfl, by simp [Bytes.result, hnot, Act.output],
      fun l hl hne => ?_, fun hlt => absurd hlt hnot⟩
    simp [Bytes.result, show l < v.pipeCounter by omega]
  | exit =>
    exact ⟨.exit, fun l _ => rfl, fun l _ => rfl, by simp [Act.output], fun l _ _ => rfl,
      by simp [Act.output]⟩

end Carry

section Soundness
variable {P : Programs σ α} {v : ArgVector} {input : List α} {f f' : Flow σ α}

def Flowing (P : Programs σ α) (j : ℕ) (c : Channel α) (out : List α) : Phase σ → Prop
  | .before => c.taken = [] ∧ out = []
  | .during p => ∀ ys, Produces P.io p c.unread ys → Produces P.io (P.start j) c.sent (out ++ ys)
  | .after => Produces P.io (P.start j) c.sent out

structure FlowInv (P : Programs σ α) (v : ArgVector) (input : List α) (f : Flow σ α) : Prop where
  input : f.bytes.stdin.sent = input
  flowing : ∀ j ≤ v.pipeCounter,
    Flowing P j (f.bytes.given j) (f.bytes.result v j) (f.shell.phase v j)
  fits : ∀ j < v.pipeCounter, (f.bytes.pipe j).sent.length ≤ P.capacity

theorem Flowing.starts {j : ℕ} {c : Channel α} {out : List α} {phase : Phase σ}
    (h : Flowing P j c out phase) (hphase : phase = .before) :
    Flowing P j c out (.during (P.start j)) := by
  subst hphase
  obtain ⟨htaken, rfl⟩ := h
  intro ys hys
  rwa [Channel.sent_eq htaken]

theorem Flowing.advances {j : ℕ} {c c' : Channel α} {out : List α} {p q : σ} {a : Act α}
    (h : Flowing P j c out (.during p)) (hio : P.io p a q) (ht : Takes a c.unread c'.unread)
    (hsent : c'.sent = c.sent) :
    Flowing P j c' (out ++ a.output) (if kind a = .exit then .after else .during q) := by
  split_ifs with ha
  · obtain rfl := (kind_exit a).mp ha
    have := h [] ⟨1, .exit hio⟩
    rw [Flowing, hsent]
    simpa [Act.output] using this
  · rintro ys ⟨n, hys⟩
    rw [hsent, List.append_assoc]
    exact h _ ⟨n + 1, .move (mt (kind_exit a).mpr ha) hio ht hys⟩

theorem Flowing.frame {j : ℕ} {c c' : Channel α} {out : List α} {phase : Phase σ}
    (h : Flowing P j c out phase) (hphase : phase = .after ∧ c'.sent = c.sent ∨
      phase = .before ∧ c'.taken = c.taken) : Flowing P j c' out phase := by
  rcases hphase with ⟨rfl, hsent⟩ | ⟨rfl, htaken⟩
  · rwa [Flowing, hsent]
  · rwa [Flowing, htaken]

theorem flow_boot (h : FlowBoot input f) : FlowInv P v input f := by
  have hbefore (j : ℕ) : f.shell.phase v j = .before := by
    simp only [State.phase, h.shell.unborn j, h.shell.pc]
    split_ifs <;> rfl
  refine ⟨?_, fun j _ => ?_, fun j _ => ?_⟩
  · rw [h.bytes]
    rfl
  · rw [hbefore, h.bytes]
    refine ⟨by cases j <;> rfl, ?_⟩
    simp only [Bytes.result, Bytes.boot]
    split_ifs <;> rfl
  · rw [h.bytes]
    exact Nat.zero_le _

theorem Inv.others (h : Inv v f.shell) {j l : ℕ} {p : σ} (hj : j ≤ v.pipeCounter)
    (hphase : f.shell.phase v j = .during p) (hl : l ≤ v.pipeCounter) (hne : l ≠ j) :
    l < j ∧ f.shell.phase v l = .after ∨ j < l ∧ f.shell.phase v l = .before := by
  rcases Nat.lt_or_gt_of_ne hne with hlt | hgt
  · exact .inl ⟨hlt, h.in_order hj (by rw [hphase]; nofun) hlt⟩
  · refine .inr ⟨hgt, ?_⟩
    by_contra hno
    rw [h.in_order hl hno hgt] at hphase
    cases hphase

theorem flowInv_advances {j : ℕ} {p q : σ} {a : Act α} (h : Inv v f.shell)
    (hf : FlowInv P v input f) (hadv : Advances P v f j p a q f') : FlowInv P v input f' := by
  obtain ⟨t, h0, h1, hmv⟩ := hadv.moves
  have hcar := hmv.carries hadv.le h0 h1
  have hj := hf.flowing j hadv.le
  rw [hadv.runs] at hj
  refine ⟨?_, fun l hl => ?_, fun l hl => ?_⟩
  · rw [← hf.input]
    exact hcar.sent 0 (Nat.zero_le _)
  · by_cases hlj : l = j
    · subst hlj
      rw [hadv.next, hcar.writes]
      exact hj.advances hadv.io hcar.takes (hcar.sent l (Nat.le_refl _))
    · rw [hadv.others l hl hlj, hcar.others l hl hlj]
      refine (hf.flowing l hl).frame ?_
      rcases h.others hadv.le hadv.runs hl hlj with ⟨hlt, hafter⟩ | ⟨hgt, hbefore⟩
      · exact .inl ⟨hafter, hcar.sent l (Nat.le_of_lt hlt)⟩
      · exact .inr ⟨hbefore, hcar.taken l hlj⟩
  · have hle := hf.fits l hl
    by_cases hlj : l = j
    · subst hlj
      have hwrites := hcar.writes
      rw [result_stage hl, result_stage hl] at hwrites
      rw [hwrites]
      by_cases hout : a.output = []
      · simpa [hout] using hle
      · have hnext := hf.flowing (l + 1) hl
        rcases h.others hadv.le hadv.runs (l := l + 1) hl (Nat.succ_ne_self l) with
          ⟨hlt, -⟩ | ⟨-, hbefore⟩
        · omega
        · rw [hbefore] at hnext
          have hlen : (f.bytes.pipe l).sent.length < P.capacity :=
            (Channel.sent_eq (c := f.bytes.pipe l) hnext.1).symm ▸ hcar.fits hl hout
          cases a with
          | write y =>
            simp only [Act.output, List.length_append, List.length_singleton]
            exact hlen
          | _ => exact absurd rfl hout
    · have hother := hcar.others l (Nat.le_of_lt hl) hlj
      rw [result_stage hl, result_stage hl] at hother
      rwa [hother]

theorem flowInv_quiet {a : Actor} (h : Inv v f.shell) (hplain : v.redirection.any = false)
    (hf : FlowInv P v input f) (hq : Quiet f.shell a)
    (hstep : Step P.world v f.shell a f'.shell) (hbytes : f'.bytes = f.bytes) :
    FlowInv P v input f' := by
  refine ⟨by rw [hbytes, hf.input], fun j hj => ?_, by rw [hbytes]; exact hf.fits⟩
  rw [hbytes]
  rcases quiet_phase h hplain hq hstep j with hsame | ⟨hbefore, hduring⟩
  · rw [hsame]
    exact hf.flowing j hj
  · rw [hduring, Nat.min_eq_left hj]
    exact (hf.flowing j hj).starts hbefore

theorem flowInv_reachable (hplain : v.redirection.any = false) (hne : ∀ st ∈ v.stages, st ≠ [])
    (hf : (flow P v input).Reachable f) : Inv v f.shell ∧ FlowInv P v input f := by
  refine hf.invariant (I := fun f => Inv v f.shell ∧ FlowInv P v input f)
    (fun f h0 => ⟨inv_boot h0.shell, flow_boot h0⟩) fun f a f' hr ⟨h, hi⟩ hstep => ?_
  obtain ⟨hs, -⟩ := flow_step (flow_refines hr).2 hstep
  refine ⟨inv_step hplain hne h hs, ?_⟩
  rcases flow_cases h hstep with ⟨hq, hs, hbytes⟩ | ⟨j, p, m, q, hadv⟩
  · exact flowInv_quiet h hplain hi hq hs hbytes
  · exact flowInv_advances h hi hadv

theorem Moves.stdin_kept {capacity : ℕ} {Writers : ℕ → Prop} {t : FdTable} {d d' : Bytes α}
    {a : Act α} (h : Moves capacity Writers t d a d')
    (hread : t 0 = some (.inherited 0) → a.reads = false) : d'.stdin = d.stdin := by
  cases h with
  | readStdin h0 _ => cases hread h0
  | _ => rfl

structure Unread (P : Programs σ α) (v : ArgVector) (c : Channel α) (f : Flow σ α) : Prop where
  stdin : f.bytes.stdin = c
  reaches : ∀ p, f.shell.phase v 0 = .during p → Reaches P.io (P.start 0) p

theorem unread_advances {c : Channel α} {j : ℕ} {p q : σ} {a : Act α}
    (hun : Unreading P.io (P.start 0)) (h : Unread P v c f) (hadv : Advances P v f j p a q f') :
    Unread P v c f' := by
  obtain ⟨t, h0, -, hmv⟩ := hadv.moves
  by_cases hj : j = 0
  · subst hj
    have hp := h.reaches p hadv.runs
    refine ⟨(hmv.stdin_kept fun _ => hun p hp a q hadv.io).trans h.stdin, fun r hr => ?_⟩
    rw [hadv.next] at hr
    split_ifs at hr
    cases hr
    exact hp.tail ⟨a, hadv.io⟩
  · have hsource : source j ≠ .inherited 0 := by
      cases j with
      | zero => exact absurd rfl hj
      | succ j => nofun
    refine ⟨(hmv.stdin_kept fun ht => ?_).trans h.stdin, fun r hr => ?_⟩
    · exact absurd (Option.some.inj (h0.symm.trans ht)) hsource
    · exact h.reaches r ((hadv.others 0 (Nat.zero_le _) (Ne.symm hj)).symm.trans hr)

theorem stdin_unread (hplain : v.redirection.any = false) (hne : ∀ st ∈ v.stages, st ≠ [])
    (hun : Unreading P.io (P.start 0)) (hf : (flow P v input).Reachable f) :
    f.bytes.stdin = .fresh input := by
  suffices hall : Unread P v (.fresh input) f from hall.stdin
  refine hf.invariant (I := Unread P v (.fresh input)) (fun f h0 => ?_)
    fun f a f' hr h hstep => ?_
  · refine ⟨by rw [h0.bytes]; rfl, fun p hp => ?_⟩
    simp only [State.phase, h0.shell.unborn 0, h0.shell.pc] at hp
    split_ifs at hp <;> cases hp
  · obtain ⟨hi, -⟩ := flowInv_reachable hplain hne hr
    rcases flow_cases hi hstep with ⟨hq, hs, hbytes⟩ | ⟨j, p, m, q, hadv⟩
    · refine ⟨by rw [hbytes, h.stdin], fun p hp => ?_⟩
      rcases quiet_phase hi hplain hq hs 0 with hsame | ⟨-, hduring⟩
      · exact h.reaches p (hsame.symm.trans hp)
      · rw [hduring, Nat.zero_min] at hp
        cases hp
        exact .refl
    · exact unread_advances hun h hadv

def Done (v : ArgVector) (s : State σ) : Prop := ∀ j ≤ v.pipeCounter, s.phase v j = .after

theorem done_iff (h : Inv v f.shell) : Done v f.shell ↔ f.shell.pc = .exited := by
  constructor
  · intro hdone
    have := hdone _ (Nat.le_refl _)
    rw [phase_main] at this
    cases hpc : f.shell.pc <;> rw [hpc] at this <;> first | rfl | cases this
  · intro hpc j hj
    rcases Nat.lt_or_eq_of_le hj with hlt | rfl
    · exact h.in_order (Nat.le_refl _) (by rw [phase_main, hpc]; nofun) hlt
    · rw [phase_main, hpc]
      rfl

theorem FlowInv.composes (hf : FlowInv P v input f) (hdone : Done v f.shell) :
    Composes P.io P.start input v.pipeCounter (f.bytes.result v) := by
  intro j hj
  have := hf.flowing j hj
  rw [hdone j hj] at this
  cases j with
  | zero =>
    rw [← hf.input]
    exact this
  | succ j =>
    rw [inputOf, result_stage hj]
    exact this

end Soundness
end Shell
