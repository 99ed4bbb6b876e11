import Cs345.Shell.Denotes

namespace Shell
open Streams

variable {σ α : Type}

section Machine

structure Env (σ : Type) where
  prog : List Word → List Word → σ
  io : σ → Act Char → σ → Prop
  capacity : ℕ

def Env.programs (E : Env σ) (handed : List Word) (v : ArgVector) : Programs σ Char :=
  named (E.prog handed) E.io E.capacity v.delivered

structure Job (σ : Type) where
  programs : Programs σ Char
  vector : ArgVector
  flow : Flow σ Char

structure Live (σ : Type) where
  loop : Loop
  job : ℤ → Option (Job σ)
  terminal : List Char

def Live.handed (s : Live σ) : List Word := s.loop.handed

inductive Deed where
  | loop (e : Event)
  | job (pid : ℤ) (a : Actor)

def Stdin.leave (b : Stdin) (left : ℕ) : Stdin :=
  { b with offset := b.offset + (b.rest.length - left) }

def Flow.given (f : Flow σ α) (xs : List α) : Flow σ α :=
  ⟨{ f.shell with channels := { f.shell.channels with stdin := xs.length } },
    { f.bytes with stdin := { f.bytes.stdin with unread := xs } }⟩

def Live.run (s : Live σ) (pid : ℤ) (j : Job σ) (f : Flow σ Char) : Live σ where
  loop := { s.loop with stdin := s.loop.stdin.leave f.bytes.stdin.unread.length }
  job := Function.update s.job pid (some { j with flow := f })
  terminal := s.terminal ++ f.bytes.stdout.drop j.flow.bytes.stdout.length

variable (E : Env σ)

inductive LiveStep : Live σ → Deed → Live σ → Prop
  | loop {s : Live σ} {e : Event} {l : Loop} : LoopStep s.loop e l →
      (∀ pid, 0 < pid → e ≠ .fork pid) → (∀ pid, e ≠ .reap pid) →
      LiveStep s (.loop e) { s with loop := l }
  | fork {s : Live σ} {p : Parsed} {pid : ℤ} {l : Loop} {v : ArgVector} {f : Flow σ Char} :
      s.loop.pc = .deciding p → LoopStep s.loop (.fork pid) l → 0 < pid → v.args = p.args →
      FlowBoot s.loop.stdin.rest f →
      LiveStep s (.loop (.fork pid))
        ⟨l, Function.update s.job pid (some ⟨E.programs s.handed v, v, f⟩), s.terminal⟩
  | reap {s : Live σ} {pid : ℤ} {l : Loop} {j : Job σ} :
      LoopStep s.loop (.reap pid) l → s.job pid = some j → j.flow.shell.pc = .exited →
      LiveStep s (.loop (.reap pid)) ⟨l, Function.update s.job pid none, s.terminal⟩
  | job {s : Live σ} {pid : ℤ} {j : Job σ} {a : Actor} {f : Flow σ Char} :
      s.job pid = some j →
      FlowStep j.programs j.vector (j.flow.given s.loop.stdin.rest) a f →
      LiveStep s (.job pid a) (s.run pid j f)

def Deed.calm : Deed → Bool
  | .loop (.fork pid) => 0 < pid
  | .loop .fail => false
  | .loop .stopped => false
  | .loop .waitFail => false
  | .loop (.signal _) => false
  | .loop (.moves _) => false
  | _ => true

structure Live.Boot (s : Live σ) : Prop where
  loop : s.loop.Boot
  job : s.job = fun _ => none
  terminal : s.terminal = []

def undisturbed : Machine (Live σ) Deed where
  init := Live.Boot
  step s d t := d.calm = true ∧ LiveStep E s d t

end Machine

section Script
variable {E : Env σ} {l : Line} {handed : List Word}

def Line.delivered (l : Line) : List (List Word) := repaired [] l.segments

def Outputs (E : Env σ) (handed : List Word) : List Line → List Char → Prop
  | [], out => out = []
  | l :: lines, out =>
    match l.meaning with
    | .nothing => Outputs E (handed ++ [l.text]) lines out
    | .leave => out = []
    | .act (.chdir _) => Outputs E (handed ++ [l.text]) lines out
    | .act (.launch _ _) => ∃ ys rest,
      Through E.io E.capacity (l.delivered.map (E.prog (handed ++ [l.text]))) [] ys ∧
      Outputs E (handed ++ [l.text]) lines rest ∧ out = ys ++ rest

structure Line.Foreground (E : Env σ) (l : Line) : Prop where
  waited : l.background = false
  plain : l.words.any isRedir = false
  begins : l.Begins
  fits : (l.command begins).words.length < SIZE
  unreading : ∀ handed, ∀ st ∈ l.delivered.head?, Unreading E.io (E.prog handed st)

def Foregrounds (E : Env σ) (lines : List Line) : Prop :=
  ∀ l ∈ lines, ∀ ws b, l.meaning = .act (.launch ws b) → l.Foreground E

theorem Foregrounds.tail {rest : List Line} (h : Foregrounds E (l :: rest)) : Foregrounds E rest :=
  fun l hl => h l (List.mem_cons_of_mem _ hl)

section Foreground
variable {v : ArgVector} {input : List Char} (h : l.Foreground E)
include h

theorem Line.Foreground.first (handed : List Word) : ∃ st more, l.delivered = st :: more ∧
    Unreading E.io (E.prog handed st) := by
  obtain ⟨st, more, heq⟩ := List.exists_cons_of_ne_nil (l.command h.begins).nonempty
  have hdelivered : l.delivered = st :: more := heq
  exact ⟨st, more, hdelivered, h.unreading handed st (by rw [hdelivered]; rfl)⟩

theorem Line.Foreground.begun (hv : v.words = l.words) : v.Begins := by
  rw [ArgVector.Begins, show v.stages = l.segments from congrArg (List.splitOn bar) hv]
  exact h.begins.segments

omit h in
theorem delivered_words (hv : v.words = l.words) : v.delivered = l.delivered := by
  rw [ArgVector.delivered, show v.stages = l.segments from congrArg (List.splitOn bar) hv]
  rfl

theorem Line.Foreground.unredirected (hv : v.words = l.words) : v.redirection.any = false := by
  rw [ArgVector.redirection_any, hv, h.plain]

theorem Line.Foreground.denotes (hv : v.words = l.words) (handed : List Word) (ys : List Char) :
    (∃ f, (flow (E.programs handed v) v input).Reachable f ∧ f.shell.pc = .exited ∧
        f.bytes.stdout = ys) ↔
      Through E.io E.capacity (l.delivered.map (E.prog handed)) [] ys := by
  have hdelivered : v.delivered = (l.command h.begins).stages := delivered_words hv
  rw [Env.programs, hdelivered, delivered_denotes (h.unredirected hv) (h.begun hv) hdelivered
    (h.begins.unredirected h.plain) h.fits]
  obtain ⟨st, more, heq, hun⟩ := h.first handed
  rw [show (l.command h.begins).stages = st :: more from heq, heq, List.map_cons]
  exact ⟨fun hys => hys.any_input hun [], fun hys => hys.any_input hun input⟩

theorem Line.Foreground.unread (hv : v.words = l.words) {f : Flow σ Char}
    (hf : (flow (E.programs handed v) v input).Reachable f) : f.bytes.stdin = .fresh input := by
  have hdelivered : v.delivered = (l.command h.begins).stages := delivered_words hv
  rw [Env.programs, hdelivered] at hf
  obtain ⟨st, more, heq, hun⟩ := h.first handed
  refine delivered_unread (h.unredirected hv) (h.begun hv) hdelivered
    (h.begins.unredirected h.plain) h.fits ?_ hf
  rwa [show (l.command h.begins).stages = st :: more from heq, List.getD_cons_zero]

end Foreground

end Script

section Shared
variable {E : Env σ}

theorem Stdin.leave_rest (b : Stdin) : b.leave b.rest.length = b := by simp [Stdin.leave]

theorem given_fresh {f : Flow σ α} {xs : List α} (hf : f.bytes.stdin = .fresh xs)
    (hc : f.shell.channels = f.bytes.channels) : f.given xs = f := by
  rcases f with ⟨shell, pipe, stdin, stdout⟩
  rcases shell
  dsimp only at hf hc
  subst hf hc
  rfl

theorem loop_seekable {s s' : Loop} {e : Event} (hstep : LoopStep s e s') :
    s'.stdin.seekable = s.stdin.seekable := by
  cases hstep with
  | rewinds _ =>
    simp only [Stdin.rewind]
    split_ifs <;> rfl
  | _ => rfl

theorem live_seekable {s t : Live σ} {d : Deed} (hstep : LiveStep E s d t) :
    t.loop.stdin.seekable = s.loop.stdin.seekable := by
  cases hstep with
  | loop hstep _ _ => exact loop_seekable hstep
  | fork _ hstep _ _ _ => exact loop_seekable hstep
  | reap hstep _ _ => exact loop_seekable hstep
  | job _ _ => rfl

theorem rewind_pipe {b : Stdin} (h : b.seekable = false) (unread : ℕ) : b.rewind unread = b := by
  simp [Stdin.rewind, h]

end Shared

section Sound
variable {E : Env σ} {lines rest todo : List Line} {l : Line} {handed : List Word}
  {s t : Live σ} {d : Deed} {out : List Char}

def Pending (E : Env σ) (lines : List Line) (handed : List Word) (rest : List Line)
    (out : List Char) : Prop :=
  ∀ more, Outputs E handed rest more → Outputs E [] lines (out ++ more)

theorem Pending.nothing (h : Pending E lines handed (l :: rest) out)
    (hm : l.meaning = .nothing) : Pending E lines (handed ++ [l.text]) rest out :=
  fun more hmore => h more (by simp only [Outputs, hm]; exact hmore)

theorem Pending.chdir (h : Pending E lines handed (l :: rest) out) {dir : Option Word}
    (hm : l.meaning = .act (.chdir dir)) : Pending E lines (handed ++ [l.text]) rest out :=
  fun more hmore => h more (by simp only [Outputs, hm]; exact hmore)

theorem Pending.launch (h : Pending E lines handed (l :: rest) out) {ws : List Word} {b : Bool}
    {ys : List Char} (hm : l.meaning = .act (.launch ws b))
    (hys : Through E.io E.capacity (l.delivered.map (E.prog (handed ++ [l.text]))) [] ys) :
    Pending E lines (handed ++ [l.text]) rest (out ++ ys) := by
  intro more hmore
  rw [List.append_assoc]
  refine h _ ?_
  simp only [Outputs, hm]
  exact ⟨ys, more, hys, hmore, rfl⟩

theorem Pending.leave (h : Pending E lines handed (l :: rest) out) (hm : l.meaning = .leave) :
    Outputs E [] lines out := by
  rw [← List.append_nil out]
  exact h [] (by simp only [Outputs, hm])

theorem Pending.eof (h : Pending E lines handed [] out) : Outputs E [] lines out := by
  rw [← List.append_nil out]
  exact h [] rfl

structure Idle (E : Env σ) (lines : List Line) (s : Live σ) (handed : List Word)
    (rest todo : List Line) : Prop where
  ahead : s.loop.stdin.ahead = stream rest
  legible : Legible todo
  foreground : Foregrounds E todo
  pending : Pending E lines handed todo s.terminal
  job : s.job = fun _ => none

structure Busy (E : Env σ) (lines : List Line) (s : Live σ) (pid : ℤ) (handed : List Word)
    (l : Line) (rest : List Line) (v : ArgVector) (f : Flow σ Char) (out : List Char) : Prop where
  positive : 0 < pid
  ahead : s.loop.stdin.ahead = stream rest
  read : s.handed = handed ++ [l.text]
  legible : Legible rest
  foreground : Foregrounds E rest
  launched : ∃ ws b, l.meaning = .act (.launch ws b)
  waited : l.Foreground E
  words : v.words = l.words
  pending : Pending E lines handed (l :: rest) out
  job : s.job = Function.update (fun _ => none) pid (some ⟨E.programs s.handed v, v, f⟩)
  reached : (flow (E.programs s.handed v) v s.loop.stdin.rest).Reachable f
  terminal : s.terminal = out ++ f.bytes.stdout

def Working (E : Env σ) (lines : List Line) (s : Live σ) (pid : ℤ) : Prop :=
  ∃ handed l rest v f out, Busy E lines s pid handed l rest v f out

def Due (E : Env σ) (lines : List Line) (s : Live σ) : Prop :=
  match s.loop.pc with
  | .reading => ∃ rest, Idle E lines s s.handed rest rest
  | .parsing command => ∃ l rest handed, command = l.text ∧ s.handed = handed ++ [l.text] ∧
      Idle E lines s handed rest (l :: rest)
  | .deciding p => ∃ l rest handed, Understood l p ∧ s.handed = handed ++ [l.text] ∧
      Idle E lines s handed rest (l :: rest)
  | .forked pid flag => flag = false ∧ Working E lines s pid
  | .assigned pid flag => flag = false ∧ Working E lines s pid
  | .waiting pid => Working E lines s pid
  | .exited => Outputs E [] lines s.terminal ∧ s.job = fun _ => none

theorem due_boot (h : s.Boot) (hinput : s.loop.stdin.ahead = stream lines) (hleg : Legible lines)
    (hfore : Foregrounds E lines) : Due E lines s := by
  simp only [Due, h.loop.pc]
  refine ⟨lines, hinput, hleg, hfore, ?_, h.job⟩
  rw [Live.handed, h.loop.handed, h.terminal]
  exact fun more hmore => hmore

theorem Idle.read (h : Idle E lines s handed rest (l :: rest)) {c : Loop}
    (hstdin : c.stdin = s.loop.stdin) (hhanded : c.handed = handed ++ [l.text])
    (hopen : l.meaning ≠ .leave) (hnext : Pending E lines (handed ++ [l.text]) rest s.terminal) :
    Idle E lines { s with loop := c } c.handed rest rest :=
  ⟨(congrArg Stdin.ahead hstdin).trans h.ahead, h.legible.2.2 hopen, h.foreground.tail,
    hhanded ▸ hnext, h.job⟩

theorem Working.moved {pid : ℤ} (h : Working E lines s pid) (pc : LoopPc) (globalPid : ℤ) :
    Working E lines { s with loop := { s.loop with pc := pc, globalPid := globalPid } } pid := by
  obtain ⟨handed, l, rest, v, f, out, h⟩ := h
  exact ⟨handed, l, rest, v, f, out, { h with }⟩

theorem due_loop {e : Event} {c : Loop} (h : Due E lines s)
    (hpipe : s.loop.stdin.seekable = false) (hcalm : (Deed.loop e).calm = true)
    (hstep : LoopStep s.loop e c) (hfork : ∀ pid, 0 < pid → e ≠ .fork pid)
    (hreap : ∀ pid, e ≠ .reap pid) : Due E lines { s with loop := c } := by
  have hdue := h
  simp only [Due] at h
  cases hstep with
  | fill hpc _ _ _ _ =>
    rw [hpc] at h
    obtain ⟨rest, hidle⟩ := h
    simp only [Due, hpc]
    exact ⟨rest, (Stdin.fill_ahead _ _).trans hidle.ahead, hidle.legible, hidle.foreground,
      hidle.pending, hidle.job⟩
  | @read command buffer hpc hready hget =>
    rw [hpc] at h
    obtain ⟨rest, hidle⟩ := h
    have hahead := read_ahead hready hget
    cases rest with
    | nil => rw [hidle.ahead] at hahead; cases hahead
    | cons l rest =>
      rw [hidle.ahead, stream_cons, fgets_short hidle.legible.1] at hahead
      obtain ⟨rfl, hrest⟩ := Prod.mk.inj (Option.some.inj hahead)
      exact ⟨l, rest, s.handed, rfl, rfl, hrest.symm, hidle.legible, hidle.foreground,
        hidle.pending, hidle.job⟩
  | eof hpc hready hget =>
    rw [hpc] at h
    obtain ⟨rest, hidle⟩ := h
    obtain rfl := stream_eq_nil (hidle.ahead.symm.trans (eof_ahead hready hget))
    exact ⟨hidle.pending.eof, hidle.job⟩
  | parse hpc hparse =>
    rw [hpc] at h
    obtain ⟨l, rest, handed, rfl, hhanded, hidle⟩ := h
    exact ⟨l, rest, handed, hparse.understood hidle.legible.2.1, hhanded, hidle.ahead,
      hidle.legible, hidle.foreground, hidle.pending, hidle.job⟩
  | empty hpc h0 =>
    rw [hpc] at h
    obtain ⟨l, rest, handed, hl, hhanded, hidle⟩ := h
    have hm := hl.nothing_iff.mpr h0
    exact ⟨rest, hidle.read rfl hhanded (by simp [hm]) (hidle.pending.nothing hm)⟩
  | exit hpc hexit =>
    rw [hpc] at h
    obtain ⟨l, rest, handed, hl, hhanded, hidle⟩ := h
    exact ⟨hidle.pending.leave (hl.leave_iff.mpr hexit), hidle.job⟩
  | cd hpc hpos hcd =>
    rw [hpc] at h
    obtain ⟨l, rest, handed, hl, hhanded, hidle⟩ := h
    have hm := hl.cd_meaning hpos hcd
    exact ⟨rest, hidle.read rfl hhanded (by simp [hm]) (hidle.pending.chdir hm)⟩
  | fork _ _ _ _ hpid _ => exact absurd rfl (hfork _ hpid)
  | forkFail _ _ _ _ => exact absurd hcalm (by decide)
  | assign hpc =>
    rw [hpc] at h
    exact ⟨h.1, h.2.moved _ _⟩
  | fail _ _ => cases hcalm
  | background hpc _ =>
    rw [hpc] at h
    exact absurd h.1 (by decide)
  | wait hpc _ =>
    rw [hpc] at h
    exact h.2.moved _ s.loop.globalPid
  | reap _ => exact absurd rfl (hreap _)
  | stopped _ => cases hcalm
  | waitFail _ => cases hcalm
  | signal _ => cases hcalm
  | moves _ _ => cases hcalm
  | rewinds _ =>
    rw [rewind_pipe hpipe]
    exact hdue

theorem due_fork {p : Parsed} {pid : ℤ} {c : Loop} {v : ArgVector} {f : Flow σ Char}
    (h : Due E lines s) (hpc : s.loop.pc = .deciding p) (hstep : LoopStep s.loop (.fork pid) c)
    (hpid : 0 < pid) (hv : v.args = p.args) (hf : FlowBoot s.loop.stdin.rest f) :
    Due E lines
      ⟨c, Function.update s.job pid (some ⟨E.programs s.handed v, v, f⟩), s.terminal⟩ := by
  simp only [Due, hpc] at h
  obtain ⟨l, rest, handed, hl, hhanded, hidle⟩ := h
  cases hstep with
  | @fork q _ hq hpos hexit hcd _ _ =>
    obtain rfl : p = q := LoopPc.deciding.inj (hpc.symm.trans hq)
    have hm := hl.launch_meaning hpos hexit hcd
    have hfore := hidle.foreground l List.mem_cons_self _ _ hm
    refine ⟨hl.ampershandFlag.trans hfore.waited, handed, l, rest, v, f, s.terminal,
      { positive := hpid
        ahead := hidle.ahead
        read := hhanded
        legible := hidle.legible.2.2 (by simp [hm])
        foreground := hidle.foreground.tail
        launched := ⟨_, _, hm⟩
        waited := hfore
        words := (congrArg words hv).trans hl.words
        pending := hidle.pending
        job := by rw [hidle.job]; rfl
        reached := .init hf
        terminal := by rw [hf.bytes]; exact (List.append_nil _).symm }⟩
  | forkFail _ _ _ _ => exact absurd hpid (by decide)

theorem update_none (pid : ℤ) : Function.update (fun _ : ℤ => (none : Option (Job σ))) pid none =
    fun _ => none := Function.update_eq_self pid _

theorem due_reap {pid : ℤ} {c : Loop} {j : Job σ} (h : Due E lines s)
    (hstep : LoopStep s.loop (.reap pid) c) (hj : s.job pid = some j)
    (hx : j.flow.shell.pc = .exited) :
    Due E lines ⟨c, Function.update s.job pid none, s.terminal⟩ := by
  cases hstep with
  | reap hpc =>
    simp only [Due, hpc] at h
    obtain ⟨handed, l, rest, v, f, out, hbusy⟩ := h
    rw [hbusy.job, Function.update_self] at hj
    cases hj
    obtain ⟨ws, b, hm⟩ := hbusy.launched
    have hthrough := (hbusy.waited.denotes hbusy.words s.handed _).mp ⟨f, hbusy.reached, hx, rfl⟩
    rw [hbusy.read] at hthrough
    refine ⟨rest, hbusy.ahead, hbusy.legible, hbusy.foreground, ?_, ?_⟩
    · have hnext := hbusy.pending.launch hm hthrough
      rw [← hbusy.read, ← hbusy.terminal] at hnext
      exact hnext
    · rw [hbusy.job, Function.update_idem, update_none]

theorem stdout_grows {P : Programs σ α} {v : ArgVector} {f g : Flow σ α} {a : Actor}
    (h : FlowStep P v f a g) : f.bytes.stdout <+: g.bytes.stdout := by
  have hmoves {act : Act α} {capacity : ℕ} {W : ℕ → Prop} {table : FdTable} {b b' : Bytes α}
      (h : Moves capacity W table b act b') : b.stdout <+: b'.stdout := by
    cases h with
    | writeStdout _ => exact List.prefix_append _ _
    | _ => exact List.prefix_rfl
  cases h with
  | shell _ _ => exact List.prefix_rfl
  | run _ _ hm => exact hmoves hm
  | stageRun _ _ hm => exact hmoves hm

theorem given_reached {P : Programs σ α} {v : ArgVector} {input : List α} {f : Flow σ α}
    (hf : (flow P v input).Reachable f) (hstdin : f.bytes.stdin = .fresh input) :
    f.given input = f := given_fresh hstdin (flow_refines hf).2

theorem run_unread {pid : ℤ} {j : Job σ} {f : Flow σ Char}
    (h : f.bytes.stdin = .fresh s.loop.stdin.rest) : (s.run pid j f).loop = s.loop := by
  have hleft : f.bytes.stdin.unread = s.loop.stdin.rest := congrArg Channel.unread h
  simp only [Live.run, hleft, Stdin.leave_rest]

theorem Busy.step {pid : ℤ} {v : ArgVector} {f g : Flow σ Char} {a : Actor}
    (h : Busy E lines s pid handed l rest v f out)
    (hstep : FlowStep (E.programs s.handed v) v (f.given s.loop.stdin.rest) a g) :
    Working E lines (s.run pid ⟨E.programs s.handed v, v, f⟩ g) pid ∧
      (s.run pid ⟨E.programs s.handed v, v, f⟩ g).loop = s.loop := by
  rw [given_reached h.reached (h.waited.unread h.words h.reached)] at hstep
  have hreached := h.reached.step hstep
  have hloop : (s.run pid ⟨E.programs s.handed v, v, f⟩ g).loop = s.loop :=
    run_unread (h.waited.unread h.words hreached)
  refine ⟨⟨handed, l, rest, v, g, out, ?_⟩, hloop⟩
  have hhanded : (s.run pid ⟨E.programs s.handed v, v, f⟩ g).handed = s.handed := rfl
  refine ⟨h.positive, ?_, h.read, h.legible, h.foreground, h.launched, h.waited, h.words,
    h.pending, ?_, ?_, ?_⟩
  · rw [hloop, h.ahead]
  · rw [hhanded, Live.run, h.job, Function.update_idem]
  · rw [hhanded, hloop]
    exact hreached
  · obtain ⟨ys, hys⟩ := stdout_grows hstep
    rw [Live.run, h.terminal, ← hys, List.drop_left, List.append_assoc]

theorem Working.step {pid q : ℤ} {j : Job σ} {a : Actor} {g : Flow σ Char}
    (h : Working E lines s q) (hj : s.job pid = some j)
    (hstep : FlowStep j.programs j.vector (j.flow.given s.loop.stdin.rest) a g) :
    Working E lines (s.run pid j g) q ∧ (s.run pid j g).loop = s.loop := by
  obtain ⟨handed, l, rest, v, f, out, h⟩ := h
  rw [h.job] at hj
  by_cases hq : pid = q
  · subst hq
    rw [Function.update_self] at hj
    cases hj
    exact h.step hstep
  · rw [Function.update_of_ne hq] at hj
    cases hj

theorem due_job {pid : ℤ} {j : Job σ} {a : Actor} {g : Flow σ Char} (h : Due E lines s)
    (hj : s.job pid = some j)
    (hstep : FlowStep j.programs j.vector (j.flow.given s.loop.stdin.rest) a g) :
    Due E lines (s.run pid j g) := by
  have hidle {P : Prop} (hnone : s.job = fun _ => none) : P := by
    rw [hnone] at hj
    cases hj
  simp only [Due] at h ⊢
  cases hpc : s.loop.pc with
  | reading => rw [hpc] at h; exact hidle h.choose_spec.job
  | parsing command =>
    rw [hpc] at h
    obtain ⟨l, rest, handed, -, -, hi⟩ := h
    exact hidle hi.job
  | deciding p =>
    rw [hpc] at h
    obtain ⟨l, rest, handed, -, -, hi⟩ := h
    exact hidle hi.job
  | forked q flag =>
    rw [hpc] at h
    obtain ⟨hwork, hloop⟩ := h.2.step hj hstep
    rw [hloop, hpc]
    exact ⟨h.1, hwork⟩
  | assigned q flag =>
    rw [hpc] at h
    obtain ⟨hwork, hloop⟩ := h.2.step hj hstep
    rw [hloop, hpc]
    exact ⟨h.1, hwork⟩
  | waiting q =>
    rw [hpc] at h
    obtain ⟨hwork, hloop⟩ := Working.step h hj hstep
    rw [hloop, hpc]
    exact hwork
  | exited => rw [hpc] at h; exact hidle h.2

theorem due_step (h : Due E lines s) (hpipe : s.loop.stdin.seekable = false)
    (hstep : (undisturbed E).step s d t) : Due E lines t := by
  obtain ⟨hcalm, hstep⟩ := hstep
  cases hstep with
  | loop hstep hfork hreap => exact due_loop h hpipe hcalm hstep hfork hreap
  | fork hpc hstep hpid hv hf => exact due_fork h hpc hstep hpid hv hf
  | reap hstep hj hx => exact due_reap h hstep hj hx
  | job hj hstep => exact due_job h hj hstep

theorem due_reachable {s0 : Live σ} (hboot : s0.Boot) (hpipe : s0.loop.stdin.seekable = false)
    (hinput : s0.loop.stdin.ahead = stream lines) (hleg : Legible lines)
    (hfore : Foregrounds E lines) (hs : ((undisturbed E).started s0).Reachable s) :
    Due E lines s ∧ s.loop.stdin.seekable = false := by
  refine hs.invariant (I := fun s => Due E lines s ∧ s.loop.stdin.seekable = false)
    (fun s h => ?_) fun s d t _ h hstep => ?_
  · obtain rfl : s = s0 := h
    exact ⟨due_boot hboot hinput hleg hfore, hpipe⟩
  · exact ⟨due_step h.1 h.2 hstep, (live_seekable hstep.2).trans h.2⟩

end Sound

section Complete
variable {E : Env σ} {lines : List Line} {l : Line} {s0 s : Live σ} {p : Parsed}
  {ys out : List Char}

theorem live_reads (s : Live σ) (c : Loop) (e : Event) (c' : Loop)
    (hs : ((undisturbed E).started s0).Reachable { s with loop := c }) (he : e.reads = true)
    (hstep : LoopStep c e c') : ((undisturbed E).started s0).Reachable { s with loop := c' } := by
  have hcalm : (Deed.loop e).calm = true := by cases e <;> trivial
  have hlive : LiveStep E { s with loop := c } (.loop e) { s with loop := c' } := by
    refine .loop hstep (fun pid _ heq => ?_) fun pid heq => ?_
    · rw [heq] at he
      cases he
    · rw [heq] at he
      cases he
  exact hs.step ⟨hcalm, hlive⟩

section From
variable (hs : ((undisturbed E).started s0).Reachable s)
include hs

theorem loop_reached {e : Event} {c : Loop} (hcalm : (Deed.loop e).calm = true)
    (hstep : LoopStep s.loop e c) (hfork : ∀ pid, 0 < pid → e ≠ .fork pid)
    (hreap : ∀ pid, e ≠ .reap pid) :
    ((undisturbed E).started s0).Reachable { s with loop := c } :=
  hs.step (l := .loop e) ⟨hcalm, .loop hstep hfork hreap⟩

theorem reap_step {pid : ℤ} {j : Job σ} (hpc : s.loop.pc = .waiting pid)
    (hj : s.job pid = some j) (hx : j.flow.shell.pc = .exited) :
    ((undisturbed E).started s0).Reachable
      ⟨{ s.loop with pc := .reading, children := s.loop.children.erase pid },
        Function.update s.job pid none, s.terminal⟩ :=
  hs.step (l := .loop (.reap pid)) ⟨rfl, .reap (.reap hpc) hj hx⟩

theorem job_reached {P : Programs σ Char} {v : ArgVector} {pid : ℤ} {f g : Flow σ Char}
    (hj : s.job pid = some ⟨P, v, f⟩) (hf : FlowBoot s.loop.stdin.rest f)
    (hun : ∀ g, (flow P v s.loop.stdin.rest).Reachable g →
      g.bytes.stdin = .fresh s.loop.stdin.rest)
    (hg : ((flow P v s.loop.stdin.rest).started f).Reachable g) :
    ((undisturbed E).started s0).Reachable
      ⟨s.loop, Function.update s.job pid (some ⟨P, v, g⟩), s.terminal ++ g.bytes.stdout⟩ := by
  induction hg with
  | @init u h =>
    have heq : u = f := h
    have hnil : f.bytes.stdout = [] := by rw [hf.bytes]; rfl
    rw [heq, hnil, List.append_nil, ← hj, Function.update_eq_self]
    exact hs
  | @step g a g' hreach hstep ih =>
    have hg : (flow P v s.loop.stdin.rest).Reachable g := Machine.Reachable.of_started (.init hf) hreach
    have hgiven : FlowStep P v (g.given s.loop.stdin.rest) a g' := by
      rw [given_reached hg (hun g hg)]
      exact hstep
    have hnext := ih.step (l := .job pid a) ⟨rfl, .job (Function.update_self _ _ _) hgiven⟩
    have hleft : g'.bytes.stdin.unread = s.loop.stdin.rest :=
      congrArg Channel.unread (hun g' (hg.step hstep))
    obtain ⟨zs, hzs⟩ := stdout_grows hstep
    rw [Live.run] at hnext
    dsimp only at hnext
    rw [hleft, Stdin.leave_rest, Function.update_idem, ← hzs, List.drop_left, List.append_assoc,
      hzs] at hnext
    exact hnext

theorem launch_reached (hpc : s.loop.pc = .deciding p) (hl : Understood l p)
    (hfore : l.Foreground E) (hpos : p.numArgs ≠ 0) (hexit : p.isExit = false)
    (hcd : p.args 0 ≠ some cd) (hjob : s.job = fun _ => none) {v : ArgVector}
    (hv : v.args = p.args)
    (hys : Through E.io E.capacity (l.delivered.map (E.prog s.handed)) [] ys) :
    ∃ c, ((undisturbed E).started s0).Reachable ⟨c, fun _ => none, s.terminal ++ ys⟩ ∧
      c.pc = .reading ∧ c.stdin = s.loop.stdin ∧ c.handed = s.handed := by
  have hwords : v.words = l.words := (congrArg words hv).trans hl.words
  obtain ⟨g, hg, hx, rfl⟩ : ∃ g, (flow (E.programs s.handed v) v s.loop.stdin.rest).Reachable g ∧
      g.shell.pc = .exited ∧ g.bytes.stdout = ys := (hfore.denotes hwords s.handed _).mpr hys
  obtain ⟨f, hf, hg⟩ := hg.exists_started
  obtain ⟨b, hb⟩ := s.loop.children.exists_le
  have hpid : 0 < max b 0 + 1 := by omega
  have hfresh : max b 0 + 1 ∉ s.loop.children := fun hmem => by
    have := hb _ hmem
    omega
  have hflag : p.ampershandFlag = false := hl.ampershandFlag.trans hfore.waited
  have hcalm : (Deed.loop (.fork (max b 0 + 1))).calm = true := decide_eq_true hpid
  have h1 := hs.step ⟨hcalm, .fork hpc (.fork hpc hpos hexit hcd hpid hfresh) hpid hv hf⟩
  have h2 := loop_reached h1 rfl (.assign rfl) (by simp) (by simp)
  rw [hflag] at h2
  have h3 := loop_reached h2 rfl (.wait rfl (Int.le_of_lt hpid)) (by simp) (by simp)
  have h4 := job_reached h3 (Function.update_self _ _ _) hf
    (fun g hg => hfore.unread hwords hg) hg
  have h5 := reap_step h4 rfl (Function.update_self _ _ _) hx
  rw [hjob] at h5
  simp only [Function.update_idem, update_none] at h5
  exact ⟨_, h5, rfl, rfl, rfl⟩

end From

theorem outputs_reached (hs : ((undisturbed E).started s0).Reachable s) (hpc : s.loop.pc = .reading)
    (hinput : s.loop.stdin.ahead = stream lines) (hleg : Legible lines)
    (hfore : Foregrounds E lines) (hjob : s.job = fun _ => none)
    (hout : Outputs E s.handed lines out) :
    ∃ t, ((undisturbed E).started s0).Reachable t ∧ t.loop.pc = .exited ∧
      t.terminal = s.terminal ++ out := by
  induction lines generalizing s out with
  | nil =>
    obtain rfl : out = [] := hout
    have h1 := loop_reached hs rfl (eof_step hpc hinput) (by simp) (by simp)
    exact ⟨_, h1, rfl, (List.append_nil _).symm⟩
  | cons l lines ih =>
    obtain ⟨hlen, hdelims, hrest⟩ := hleg
    have hget : fgets SIZE s.loop.stdin.ahead = some (l.text, stream lines) := by
      rw [hinput, stream_cons, fgets_short hlen]
    obtain ⟨p, hp, -⟩ := parseArguments_short hdelims s.loop.args
    have hparses : Parses l.text s.loop.args p := parses_get hp
    have hl := hparses.understood hdelims
    obtain ⟨b, hb, -, h1⟩ := read_command (live_reads s) hs hpc hget
    have h2 := loop_reached h1 rfl (.parse rfl hparses) (by simp) (by simp)
    by_cases h0 : p.numArgs = 0
    · have hm := hl.nothing_iff.mpr h0
      simp only [Outputs, hm] at hout
      have h3 := loop_reached h2 rfl (.empty rfl h0) (by simp) (by simp)
      have hnext := ih h3 rfl hb (hrest (by simp [hm])) hfore.tail hjob hout
      exact hnext
    · by_cases hexit : p.isExit = true
      · simp only [Outputs, hl.leave_iff.mpr hexit] at hout
        have h3 := loop_reached h2 rfl (.exit rfl hexit) (by simp) (by simp)
        exact ⟨_, h3, rfl, by rw [hout, List.append_nil]⟩
      · by_cases hcd : p.args 0 = some cd
        · have hm := hl.cd_meaning h0 hcd
          simp only [Outputs, hm] at hout
          have h3 := loop_reached h2 rfl (.cd rfl h0 hcd) (by simp) (by simp)
          have hnext := ih h3 rfl hb (hrest (by simp [hm])) hfore.tail hjob hout
          exact hnext
        · rw [Bool.not_eq_true] at hexit
          have hm := hl.launch_meaning h0 hexit hcd
          simp only [Outputs, hm] at hout
          obtain ⟨ys, more, hys, hmore, rfl⟩ := hout
          obtain ⟨c, hc, hcpc, hcstdin, hchanded⟩ := launch_reached h2 rfl hl
            (hfore l List.mem_cons_self _ _ hm) h0 hexit hcd hjob (v := Parsed.vector hp) rfl hys
          have hmore' : Outputs E c.handed lines more := hchanded ▸ hmore
          obtain ⟨t, ht, hx, hterm⟩ := ih hc hcpc ((congrArg Stdin.ahead hcstdin).trans hb)
            (hrest (by simp [hm])) hfore.tail rfl hmore'
          exact ⟨t, ht, hx, by rw [hterm, List.append_assoc]⟩

theorem script_outputs (hboot : s0.Boot) (hpipe : s0.loop.stdin.seekable = false)
    (hinput : s0.loop.stdin.ahead = stream lines) (hleg : Legible lines)
    (hfore : Foregrounds E lines) :
    (∃ s, ((undisturbed E).started s0).Reachable s ∧ s.loop.pc = .exited ∧ s.terminal = out) ↔
      Outputs E [] lines out := by
  constructor
  · rintro ⟨s, hs, hx, rfl⟩
    obtain ⟨hdue, -⟩ := due_reachable hboot hpipe hinput hleg hfore hs
    simp only [Due, hx] at hdue
    exact hdue.1
  · intro hout
    have hhanded : s0.handed = [] := hboot.loop.handed
    obtain ⟨t, ht, hx, hterm⟩ := outputs_reached (E := E) (.init rfl) hboot.loop.pc hinput hleg hfore
      hboot.job (hhanded.symm ▸ hout)
    exact ⟨t, ht, hx, by rw [hterm, hboot.terminal, List.nil_append]⟩

end Complete

section Sample

inductive Tool where
  | echo (left : List Char)
  | cat
  | holding (c : Char)
  | ended

inductive Tool.Act : Tool → Streams.Act Char → Tool → Prop
  | say {c : Char} {left : List Char} : Tool.Act (.echo (c :: left)) (.write c) (.echo left)
  | said : Tool.Act (.echo []) .exit .ended
  | read {c : Char} : Tool.Act .cat (.read c) (.holding c)
  | eof : Tool.Act .cat .eof .ended
  | write {c : Char} : Tool.Act (.holding c) (.write c) .cat
  | exit : Tool.Act .ended .exit .ended

theorem echo_unreading (left : List Char) : Unreading Tool.Act (.echo left) := by
  intro q hq
  have hq' : (∃ left, q = .echo left) ∨ q = .ended := by
    induction hq with
    | refl => exact .inl ⟨left, rfl⟩
    | tail _ hstep ih =>
      obtain ⟨b, hb⟩ := hstep
      rcases ih with ⟨left, rfl⟩ | rfl
      · cases hb with
        | say => exact .inl ⟨_, rfl⟩
        | said => exact .inr rfl
      · cases hb
        exact .inr rfl
  intro a r hio
  rcases hq' with ⟨left, rfl⟩ | rfl
  · cases hio <;> rfl
  · cases hio
    rfl

theorem echo_says (left input : List Char) : Produces Tool.Act (.echo left) input left := by
  induction left with
  | nil => exact ⟨_, .exit .said⟩
  | cons c left ih =>
    obtain ⟨n, ih⟩ := ih
    exact ⟨_, .move (by nofun) .say .write ih⟩

theorem cat_copies (xs : List Char) : Produces Tool.Act .cat xs xs := by
  induction xs with
  | nil => exact ⟨_, .move (by nofun) .eof .eof (.exit .exit)⟩
  | cons x xs ih =>
    obtain ⟨n, ih⟩ := ih
    exact ⟨_, .move (by nofun) .read .read (.move (by nofun) .write .write ih)⟩

def tools : Env Tool where
  prog _ st := if st.head? = some ['e', 'c', 'h', 'o'] then .echo (st.getD 1 []) else .cat
  io := Tool.Act
  capacity := 2

def freshLive (lines : List Line) : Live Tool :=
  ⟨freshLoop (freshStdin false (stream lines)), fun _ => none, []⟩

def pipeLine : Line := lineOf ['e', 'c', 'h', 'o', ' ', 'x', '|', ' ', '|', ' ', 'c', 'a', 't'] rfl

def homeLine : Line := lineOf ['c', 'd'] rfl

def exitLine : Line := lineOf ['e', 'x', 'i', 't', ' '] rfl

theorem home_meaning : homeLine.meaning = .act (.chdir none) := by decide

theorem exit_meaning : exitLine.meaning = .leave := by decide

def pipeScript : List Line := [pipeLine, homeLine, pipeLine, exitLine]

theorem pipe_delivered :
    pipeLine.delivered = [[['e', 'c', 'h', 'o'], ['x', '|']], [['c', 'a', 't']]] := by decide

theorem pipe_foreground : pipeLine.Foreground tools where
  waited := by decide
  plain := by decide
  begins := ⟨['e', 'c', 'h', 'o'], by decide, by decide⟩
  fits := by decide
  unreading handed st hst := by
    rw [pipe_delivered] at hst
    cases hst
    exact echo_unreading ['x', '|']

theorem pipe_script_foreground : Foregrounds tools pipeScript := by
  intro l hl ws b hm
  simp only [pipeScript, List.mem_cons, List.not_mem_nil, or_false] at hl
  rcases hl with rfl | rfl | rfl | rfl
  · exact pipe_foreground
  · rw [home_meaning] at hm
    cases hm
  · exact pipe_foreground
  · rw [exit_meaning] at hm
    cases hm

theorem pipe_outputs (handed : List Word) {lines : List Line} {out : List Char}
    (h : Outputs tools (handed ++ [pipeLine.text]) lines out) :
    Outputs tools handed (pipeLine :: lines) (['x', '|'] ++ out) := by
  have hm : pipeLine.meaning =
      .act (.launch [['e', 'c', 'h', 'o'], ['x', '|'], bar, ['c', 'a', 't']] false) := by decide
  simp only [Outputs, hm, pipe_delivered]
  exact ⟨['x', '|'], out, ⟨['x', '|'], echo_says _ _, by decide, cat_copies _⟩, h, rfl⟩

theorem script_copies : ∃ s, ((undisturbed tools).started (freshLive pipeScript)).Reachable s ∧
    s.loop.pc = .exited ∧ s.terminal = ['x', '|', 'x', '|'] := by
  have hexit (handed : List Word) : Outputs tools handed [exitLine] [] := by
    simp only [Outputs, exit_meaning]
  have hhome (handed : List Word) :
      Outputs tools handed [homeLine, pipeLine, exitLine] ['x', '|'] := by
    simp only [Outputs, home_meaning]
    exact pipe_outputs _ (hexit _)
  exact (script_outputs ⟨fresh_boot _ _, rfl, rfl⟩ rfl rfl (by decide) pipe_script_foreground).mpr
    (pipe_outputs [] (hhome _))

end Sample
end Shell
