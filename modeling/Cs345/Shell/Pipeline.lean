import Cs345.Machine
import Cs345.Shell.Redirect
import Cs345.Shell.Stages

namespace Shell

section Channels

inductive Io where
  | readByte
  | readEof
  | writeByte
  | exit
deriving DecidableEq

structure Channels where
  held : ℕ → ℕ
  stdin : ℕ

def FileEnd.isPipe : FileEnd → Bool
  | .readEnd _ => true
  | .writeEnd _ => true
  | _ => false

-- reads are from descriptor 0 and writes to descriptor 1; a process that could only block has
-- no transfer
inductive Transfer (capacity : ℕ) (Writers : ℕ → Prop) (t : FdTable) (c : Channels) :
    Io → Channels → Prop
  | readPipe {p : ℕ} : t 0 = some (.readEnd p) → 0 < c.held p →
      Transfer capacity Writers t c .readByte
        { c with held := Function.update c.held p (c.held p - 1) }
  | readOther {e : FileEnd} : t 0 = some e → e.isPipe = false → 0 < c.stdin →
      Transfer capacity Writers t c .readByte { c with stdin := c.stdin - 1 }
  | eofPipe {p : ℕ} : t 0 = some (.readEnd p) → c.held p = 0 → ¬ Writers p →
      Transfer capacity Writers t c .readEof c
  | eofOther {e : FileEnd} : t 0 = some e → e.isPipe = false → c.stdin = 0 →
      Transfer capacity Writers t c .readEof c
  | writePipe {p : ℕ} : t 1 = some (.writeEnd p) → c.held p < capacity →
      Transfer capacity Writers t c .writeByte
        { c with held := Function.update c.held p (c.held p + 1) }
  | writeOther {e : FileEnd} : t 1 = some e → e.isPipe = false →
      Transfer capacity Writers t c .writeByte c
  | exit : Transfer capacity Writers t c .exit c

end Channels

structure World (σ : Type) where
  start : ℕ → σ
  io : σ → Io → σ → Prop
  redirExec : Bool
  capacity : ℕ

inductive MainPc (σ : Type) where
  | start
  | redirExec
  | loop (i inn : ℕ)
  | piped (i inn r w : ℕ)
  | ready (i inn r w : ℕ)
  | waiting (i r w : ℕ)
  | closing (i r w : ℕ)
  | dupLast (inn : ℕ)
  | lastArg
  | lastExec
  | running (p : σ)
  | exited

inductive StagePc (σ : Type) where
  | unborn
  | dupIn (inn out : ℕ)
  | closeIn (inn out : ℕ)
  | dupOut (out : ℕ)
  | closeOut (out : ℕ)
  | exec
  | running (p : σ)
  | exited

def StagePc.live {σ : Type} : StagePc σ → Bool
  | .unborn => false
  | .exited => false
  | _ => true

structure Stage (σ : Type) where
  pc : StagePc σ
  table : FdTable
  tempargs : Args

structure State (σ : Type) where
  pc : MainPc σ
  table : FdTable
  tempargs : Args
  nextPipe : ℕ
  fs : FileSystem
  stage : ℕ → Stage σ
  channels : Channels
  pipes : ℕ
  execs : List (List Word)

variable {σ : Type}

def State.Writers (s : State σ) (p : ℕ) : Prop :=
  (s.pc ≠ .exited ∧ Holds s.table (.writeEnd p)) ∨
    ∃ j, (s.stage j).pc.live = true ∧ Holds (s.stage j).table (.writeEnd p)

def history : Word := ['h', 'i', 's', 't', 'o', 'r', 'y']

def execLog (tempargs : Args) (cmd : Word) : List (List Word) :=
  if cmd = history then [] else [words tempargs]

def Stage.move (st : Stage σ) : Option (Stage σ) :=
  match st.pc with
  | .dupIn inn out =>
    if inn ≠ 0 then some { st with pc := .closeIn inn out, table := dup2 st.table inn 0 }
    else some { st with pc := .dupOut out }
  | .closeIn inn out => some { st with pc := .dupOut out, table := close st.table inn }
  | .dupOut out =>
    if out ≠ 1 then some { st with pc := .closeOut out, table := dup2 st.table out 1 }
    else some { st with pc := .exec }
  | .closeOut out => some { st with pc := .exec, table := close st.table out }
  | _ => none

theorem Stage.move_cases {st st' : Stage σ} (h : st.move = some st') :
    (∃ inn out, st.pc = .dupIn inn out ∧
      (inn ≠ 0 ∧ st' = { st with pc := .closeIn inn out, table := dup2 st.table inn 0 } ∨
        inn = 0 ∧ st' = { st with pc := .dupOut out })) ∨
    (∃ inn out, st.pc = .closeIn inn out ∧
      st' = { st with pc := .dupOut out, table := Shell.close st.table inn }) ∨
    (∃ out, st.pc = .dupOut out ∧
      (out ≠ 1 ∧ st' = { st with pc := .closeOut out, table := dup2 st.table out 1 } ∨
        out = 1 ∧ st' = { st with pc := .exec })) ∨
    ∃ out, st.pc = .closeOut out ∧ st' = { st with pc := .exec, table := Shell.close st.table out } := by
  simp only [Stage.move] at h
  cases hpc : st.pc with
  | dupIn inn out =>
    simp only [hpc] at h
    split_ifs at h with h0
    · cases h; exact .inl ⟨inn, out, rfl, .inl ⟨h0, rfl⟩⟩
    · cases h; exact .inl ⟨inn, out, rfl, .inr ⟨not_not.mp h0, rfl⟩⟩
  | closeIn inn out =>
    simp only [hpc] at h
    cases h; exact .inr (.inl ⟨inn, out, rfl, rfl⟩)
  | dupOut out =>
    simp only [hpc] at h
    split_ifs at h with h1
    · cases h; exact .inr (.inr (.inl ⟨out, rfl, .inl ⟨h1, rfl⟩⟩))
    · cases h; exact .inr (.inr (.inl ⟨out, rfl, .inr ⟨not_not.mp h1, rfl⟩⟩))
  | closeOut out =>
    simp only [hpc] at h
    cases h; exact .inr (.inr (.inr ⟨out, rfl, rfl⟩))
  | _ => simp only [hpc] at h; cases h

def StagePc.preparing : StagePc σ → Bool
  | .unborn => false
  | .running _ => false
  | .exited => false
  | _ => true

theorem preparing_live {pc : StagePc σ} (h : pc.preparing = true) : pc.live = true := by
  cases pc <;> first | rfl | cases h

theorem move_preparing {st st' : Stage σ} (h : st.move = some st') :
    st.pc.preparing = true ∧ st'.pc.preparing = true := by
  rcases Stage.move_cases h with ⟨_, _, hpc, ⟨-, rfl⟩ | ⟨-, rfl⟩⟩ | ⟨_, _, hpc, rfl⟩ |
    ⟨_, hpc, ⟨-, rfl⟩ | ⟨-, rfl⟩⟩ | ⟨_, hpc, rfl⟩
  all_goals exact ⟨by rw [hpc]; rfl, rfl⟩

theorem move_total {st : Stage σ} (h : st.pc.preparing = true) (hx : st.pc ≠ .exec) :
    ∃ st', st.move = some st' := by
  simp only [Stage.move]
  cases hpc : st.pc with
  | dupIn inn o => by_cases h0 : inn = 0 <;> simp [h0]
  | closeIn inn o => exact ⟨_, rfl⟩
  | dupOut o => by_cases h1 : o = 1 <;> simp [h1]
  | closeOut o => exact ⟨_, rfl⟩
  | exec => exact absurd hpc hx
  | _ => rw [hpc] at h; cases h

def pipeTable (t : FdTable) (p r w : ℕ) : FdTable :=
  Function.update (Function.update t r (some (.readEnd p))) w (some (.writeEnd p))

inductive Actor where
  | main
  | stage (j : ℕ)

inductive Step (W : World σ) (v : ArgVector) : State σ → Actor → State σ → Prop
  | redirect {s : State σ} {fds : ℕ × ℕ × ℕ} {fs : FileSystem} {table : FdTable} {t : Args} :
      s.pc = .start → v.redirection.any = true →
      redirections fds s.fs s.table s.tempargs v.args v.redirection = some (fs, table, t) →
      Step W v s .main { s with pc := .redirExec, fs := fs, table := table, tempargs := t }
  | redirExec {s : State σ} :
      s.pc = .redirExec →
      Step W v s .main { s with
        pc := if W.redirExec then .running (W.start v.pipeCounter) else .loop 0 0
        execs := s.execs ++ [words s.tempargs] }
  | plain {s : State σ} :
      s.pc = .start → v.redirection.any = false → Step W v s .main { s with pc := .loop 0 0 }
  | pipe {s : State σ} {i inn r w : ℕ} :
      s.pc = .loop i inn → i < v.pipeCounter → s.table r = none → s.table w = none → r ≠ w →
      Step W v s .main { s with
        pc := .piped i inn r w
        table := pipeTable s.table s.pipes r w
        pipes := s.pipes + 1 }
  | nextArg {s : State σ} {i inn r w c : ℕ} {t : Args} :
      s.pc = .piped i inn r w → nextArg v.args s.tempargs s.nextPipe = some (t, c) →
      Step W v s .main { s with pc := .ready i inn r w, tempargs := t, nextPipe := c }
  | fork {s : State σ} {i inn r w : ℕ} :
      s.pc = .ready i inn r w →
      Step W v s .main { s with
        pc := .waiting i r w
        stage := Function.update s.stage i ⟨.dupIn inn w, s.table, s.tempargs⟩ }
  | waitpid {s : State σ} {i r w : ℕ} :
      s.pc = .waiting i r w → (s.stage i).pc = .exited →
      Step W v s .main { s with pc := .closing i r w }
  | close {s : State σ} {i r w : ℕ} :
      s.pc = .closing i r w →
      Step W v s .main { s with pc := .loop (i + 1) r, table := close s.table w }
  | done {s : State σ} {i inn : ℕ} :
      s.pc = .loop i inn → ¬ i < v.pipeCounter → Step W v s .main { s with pc := .dupLast inn }
  | dupLast {s : State σ} {inn : ℕ} :
      s.pc = .dupLast inn →
      Step W v s .main { s with
        pc := .lastArg
        table := if inn ≠ 0 then dup2 s.table inn 0 else s.table }
  | lastArg {s : State σ} {c : ℕ} {t : Args} :
      s.pc = .lastArg → Shell.nextArg v.args s.tempargs s.nextPipe = some (t, c) →
      Step W v s .main { s with pc := .lastExec, tempargs := t, nextPipe := c }
  | lastExec {s : State σ} {cmd : Word} :
      s.pc = .lastExec → s.tempargs 0 = some cmd →
      Step W v s .main { s with
        pc := .running (W.start v.pipeCounter)
        execs := s.execs ++ execLog s.tempargs cmd }
  | run {s : State σ} {p p' : σ} {a : Io} {c : Channels} :
      s.pc = .running p → W.io p a p' →
      Transfer W.capacity s.Writers s.table s.channels a c →
      Step W v s .main { s with pc := if a = .exit then .exited else .running p', channels := c }
  | stageMove {s : State σ} {j : ℕ} {st : Stage σ} :
      (s.stage j).move = some st →
      Step W v s (.stage j) { s with stage := Function.update s.stage j st }
  | stageExec {s : State σ} {j : ℕ} {cmd : Word} :
      (s.stage j).pc = .exec → (s.stage j).tempargs 0 = some cmd →
      Step W v s (.stage j) { s with
        stage := Function.update s.stage j { s.stage j with pc := .running (W.start j) }
        execs := s.execs ++ execLog (s.stage j).tempargs cmd }
  | stageRun {s : State σ} {j : ℕ} {p p' : σ} {a : Io} {c : Channels} :
      (s.stage j).pc = .running p → W.io p a p' →
      Transfer W.capacity s.Writers (s.stage j).table s.channels a c →
      Step W v s (.stage j) { s with
        stage := Function.update s.stage j
          { s.stage j with pc := if a = .exit then .exited else .running p' }
        channels := c }

structure Boot (s : State σ) : Prop where
  pc : s.pc = .start
  table : ∃ fds : Finset ℕ, 0 ∈ fds ∧ 1 ∈ fds ∧ 2 ∈ fds ∧
    s.table = fun fd => if fd ∈ fds then some (.inherited fd) else none
  nextPipe : s.nextPipe = 0
  unborn : ∀ j, (s.stage j).pc = .unborn
  held : ∀ p, s.channels.held p = 0
  pipes : s.pipes = 0
  execs : s.execs = []

def child (W : World σ) (v : ArgVector) : Machine (State σ) Actor where
  init := Boot
  step := Step W v

end Shell
