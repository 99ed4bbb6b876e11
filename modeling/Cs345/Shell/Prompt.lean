import Cs345.Machine
import Cs345.Shell.History
import Mathlib.Data.Finset.Insert
import Mathlib.Data.Finset.Erase
import Mathlib.Data.Finset.Order

namespace Shell

section Input

def takeLine : ℕ → List Char → Word × List Char
  | 0, input => ([], input)
  | _ + 1, [] => ([], [])
  | n + 1, c :: input =>
    if c = '\n' then ([c], input)
    else
      let r := takeLine n input
      (c :: r.1, r.2)

def fgets (size : ℕ) (input : List Char) : Option (Word × List Char) :=
  if input = [] then none else some (takeLine (size - 1) input)

structure Line where
  body : Word
  clean : ∀ c ∈ body, c ≠ '\n' ∧ c ≠ '\x00'

def Line.text (l : Line) : Word := l.body ++ newline

def stream (lines : List Line) : List Char := (lines.map Line.text).flatten

variable {n : ℕ} {body rest : List Char}

theorem takeLine_short (hclean : '\n' ∉ body) (hlt : body.length < n) (rest : List Char) :
    takeLine n (body ++ '\n' :: rest) = (body ++ ['\n'], rest) := by
  induction body generalizing n with
  | nil =>
    obtain ⟨n, rfl⟩ := Nat.exists_eq_add_of_lt hlt
    simp [takeLine]
  | cons c body ih =>
    cases n with
    | zero => cases hlt
    | succ n =>
      obtain ⟨hc, hbody⟩ := List.ne_and_not_mem_of_not_mem_cons hclean
      simp [takeLine, hc.symm, ih hbody (Nat.lt_of_succ_lt_succ hlt)]

theorem takeLine_long (hclean : '\n' ∉ body) (hle : n ≤ body.length) (rest : List Char) :
    takeLine n (body ++ rest) = (body.take n, body.drop n ++ rest) := by
  induction body generalizing n with
  | nil =>
    obtain rfl := Nat.le_zero.mp hle
    rfl
  | cons c body ih =>
    cases n with
    | zero => rfl
    | succ n =>
      obtain ⟨hc, hbody⟩ := List.ne_and_not_mem_of_not_mem_cons hclean
      simp [takeLine, hc.symm, ih hbody (Nat.le_of_succ_le_succ hle)]

variable {l : Line}

theorem Line.no_newline (l : Line) : '\n' ∉ l.body := fun h => (l.clean _ h).1 rfl

theorem Line.length_text (l : Line) : l.text.length = l.body.length + 1 := by
  simp [Line.text, newline]

theorem Line.text_append (l : Line) (rest : List Char) :
    l.text ++ rest = l.body ++ '\n' :: rest := by simp [Line.text, newline]

theorem fgets_short (h : l.text.length < SIZE) (rest : List Char) :
    fgets SIZE (l.text ++ rest) = some (l.text, rest) := by
  rw [l.length_text] at h
  rw [l.text_append, fgets, if_neg (by simp),
    takeLine_short l.no_newline (show l.body.length < SIZE - 1 by omega)]
  rfl

theorem fgets_long (h : SIZE ≤ l.text.length) (rest : List Char) :
    ∃ command rest', fgets SIZE (l.text ++ rest) = some (command, rest') ∧ command ≠ l.text := by
  rw [l.length_text] at h
  have hle : SIZE - 1 ≤ l.body.length := by omega
  refine ⟨l.body.take (SIZE - 1), l.body.drop (SIZE - 1) ++ '\n' :: rest, ?_, ?_⟩
  · rw [l.text_append, fgets, if_neg (by simp), takeLine_long l.no_newline hle]
  · intro heq
    have hmem : '\n' ∈ l.body.take (SIZE - 1) := by
      rw [heq]
      simp [Line.text, newline]
    exact l.no_newline (List.mem_of_mem_take hmem)

theorem stream_cons (l : Line) (lines : List Line) : stream (l :: lines) = l.text ++ stream lines :=
  rfl

theorem stream_eq_nil {lines : List Line} (h : stream lines = []) : lines = [] := by
  cases lines with
  | nil => rfl
  | cons l lines => simp [stream, Line.text, newline] at h

end Input

section Stdin

structure Stdin where
  seekable : Bool
  bytes : List Char
  offset : ℕ
  buffer : List Char
  size : ℕ
  size_pos : 0 < size

namespace Stdin
variable (b : Stdin)

def rest : List Char := b.bytes.drop b.offset

def ahead : List Char := b.buffer ++ b.rest

def ready : Prop :=
  '\n' ∈ b.buffer.take (SIZE - 1) ∨ SIZE - 1 ≤ b.buffer.length ∨ b.rest = []

instance : Decidable b.ready := inferInstanceAs (Decidable (_ ∨ _ ∨ _))

def chunk : ℕ := min b.size b.rest.length

def fill (n : ℕ) : Stdin :=
  { b with buffer := b.buffer ++ b.rest.take n, offset := b.offset + n }

def rewind (unread : ℕ) : Stdin :=
  if b.seekable = true ∧ unread ≤ b.offset then { b with offset := b.offset - unread } else b

theorem takeLine_append {n : ℕ} {input : List Char}
    (h : '\n' ∈ input.take n ∨ n ≤ input.length) (more : List Char) :
    takeLine n (input ++ more) = ((takeLine n input).1, (takeLine n input).2 ++ more) := by
  induction input generalizing n with
  | nil =>
    have hn : n = 0 := by simpa using h
    rw [hn]
    rfl
  | cons c input ih =>
    cases n with
    | zero => rfl
    | succ n =>
      simp only [List.cons_append, takeLine]
      split_ifs with hc
      · rfl
      · have hnext : '\n' ∈ input.take n ∨ n ≤ input.length := by
          simpa [Ne.symm hc] using h
        simp only [ih hnext]

variable {b} {n : ℕ}

theorem fgets_ready (h : b.ready) :
    fgets SIZE b.ahead = (fgets SIZE b.buffer).map fun r => (r.1, r.2 ++ b.rest) := by
  by_cases hrest : b.rest = []
  · simp [ahead, hrest]
  · have hline : '\n' ∈ b.buffer.take (SIZE - 1) ∨ SIZE - 1 ≤ b.buffer.length := by
      simpa [ready, hrest] using h
    have hne : b.buffer ≠ [] := by
      intro hnil
      simp [hnil, SIZE] at hline
    have hne' : b.ahead ≠ [] := by simp [ahead, hne]
    rw [fgets, if_neg hne', fgets, if_neg hne, ahead, takeLine_append hline]
    rfl

theorem fill_ahead (b : Stdin) (n : ℕ) : (b.fill n).ahead = b.ahead := by
  simp only [ahead, fill, rest, List.append_assoc, List.append_cancel_left_eq]
  rw [← List.drop_drop, List.take_append_drop]

theorem chunk_pos (h : ¬ b.ready) : 0 < b.chunk := by
  have hrest : b.rest ≠ [] := fun hnil => h (.inr (.inr hnil))
  exact Nat.lt_min.mpr ⟨b.size_pos, List.length_pos_of_ne_nil hrest⟩

theorem fill_rest (h : 0 < n) (hle : n ≤ b.chunk) : (b.fill n).rest.length < b.rest.length := by
  have hrest : (b.fill n).rest = b.rest.drop n := by simp [rest, fill]
  have : n ≤ b.rest.length := hle.trans (Nat.min_le_right _ _)
  rw [hrest, List.length_drop]
  omega

end Stdin

end Stdin

section Command

def exit : Word := ['e', 'x', 'i', 't']
def cd : Word := ['c', 'd']

def Parsed.isExit (p : Parsed) : Bool := p.numArgs ≠ 0 && p.args 0 = some exit

def isExit (command : Word) : Bool :=
  (parseArguments command (fun _ => none) false false).any Parsed.isExit

-- where parseArguments reads past the entries it has written, any outcome is possible
def Parses (command : Word) (args : Args) (p : Parsed) : Prop :=
  ∀ q, parseArguments command args false false = some q → p = q

theorem keepArgs_agree (buf_args : List (Option Word)) :
    ∀ (args args' : Args) (j : ℕ) (timeFlag ampershandFlag : Bool) (p : Parsed),
      (∀ i < j, args' i = args i) → keepArgs buf_args args j timeFlag ampershandFlag = some p →
      ∃ p', keepArgs buf_args args' j timeFlag ampershandFlag = some p' ∧
        p'.numArgs = p.numArgs ∧ ∀ i < p.numArgs, p'.args i = p.args i := by
  induction buf_args with
  | nil => intro _ _ _ _ _ _ _ h; cases h
  | cons b buf_args ih =>
    intro args args' j timeFlag ampershandFlag p hagree h
    cases b with
    | none =>
      cases h
      refine ⟨_, rfl, rfl, fun i hi => ?_⟩
      have hij : i ≠ j := Nat.ne_of_lt hi
      simpa [hij] using hagree i hi
    | some tok =>
      simp only [keepArgs] at h ⊢
      split_ifs at h ⊢ with h1 h2 h3
      · exact ih _ _ _ _ _ _ hagree h
      · exact ih _ _ _ _ _ _ hagree h
      · refine ih _ _ _ _ _ _ (fun i hi => ?_) h
        by_cases hij : i = j
        · simp [hij]
        · simpa [hij] using hagree i (by omega)
      · exact ih _ _ _ _ _ _ hagree h

theorem isExit_of_parse {command : Word} {args : Args} {p : Parsed}
    (h : parseArguments command args false false = some p) : isExit command = p.isExit := by
  obtain ⟨p', hp', hnum, hargs⟩ := keepArgs_agree _ _
    (Function.update (fun _ => none) 0 (some command)) _ _ _ _ (fun _ hi => absurd hi (Nat.not_lt_zero _)) h
  rw [isExit, parseArguments, hp', Option.any_some, Parsed.isExit, Parsed.isExit, hnum]
  by_cases h0 : p.numArgs = 0
  · simp [h0]
  · rw [hargs 0 (Nat.pos_of_ne_zero h0)]

theorem Parses.isExit {command : Word} {args : Args} {p : Parsed} (h : Parses command args p)
    (hexit : isExit command = true) : p.isExit = true := by
  obtain ⟨q, hq, -⟩ := (Option.any_eq_true _ _).mp hexit
  obtain ⟨r, hr, -, -⟩ := keepArgs_agree _ _ (Function.update args 0 (some command)) _ _ _ _
    (fun _ hi => absurd hi (Nat.not_lt_zero _)) hq
  obtain rfl := h r hr
  rw [← isExit_of_parse hr, hexit]

theorem exists_parses (command : Word) (args : Args) (hexit : isExit command = false) :
    ∃ p, Parses command args p ∧ p.isExit = false := by
  cases hp : parseArguments command args false false with
  | none =>
    refine ⟨⟨args, 0, false, false⟩, fun q hq => ?_, by simp [Parsed.isExit]⟩
    rw [hp] at hq
    cases hq
  | some p =>
    refine ⟨p, fun q hq => ?_, isExit_of_parse hp ▸ hexit⟩
    rw [hp] at hq
    exact Option.some.inj hq

end Command

section Loop

inductive Signal where
  | int
  | term
deriving DecidableEq

inductive LoopPc where
  | reading
  | parsing (command : Word)
  | deciding (p : Parsed)
  | forked (pid : ℤ) (ampershandFlag : Bool)
  | assigned (pid : ℤ) (ampershandFlag : Bool)
  | waiting (pid : ℤ)
  | exited

structure Loop where
  pc : LoopPc
  stdin : Stdin
  copies : List ℕ
  handed : List Word
  commandHistory : History
  args : Args
  globalPid : ℤ
  children : Finset ℤ

inductive Event where
  | fill (n : ℕ)
  | read
  | eof
  | parse
  | empty
  | exit
  | cd
  | fork (pid : ℤ)
  | assign (pid : ℤ)
  | fail
  | background
  | wait
  | reap (pid : ℤ)
  | stopped
  | waitFail
  | signal (sig : Signal)
  | moves (offset : ℕ)
  | rewinds (unread : ℕ)
deriving DecidableEq

inductive LoopStep : Loop → Event → Loop → Prop
  | fill {s : Loop} {n : ℕ} :
      s.pc = .reading → ¬ s.stdin.ready → 0 < n → n ≤ s.stdin.chunk →
      (s.stdin.seekable = true → n = s.stdin.chunk) →
      LoopStep s (.fill n) { s with stdin := s.stdin.fill n }
  | read {s : Loop} {command : Word} {rest : List Char} :
      s.pc = .reading → s.stdin.ready → fgets SIZE s.stdin.buffer = some (command, rest) →
      LoopStep s .read { s with
        pc := .parsing command
        stdin := { s.stdin with buffer := rest }
        handed := s.handed ++ [command]
        commandHistory := record s.commandHistory command }
  | eof {s : Loop} :
      s.pc = .reading → s.stdin.ready → fgets SIZE s.stdin.buffer = none →
      LoopStep s .eof { s with pc := .exited }
  | parse {s : Loop} {command : Word} {p : Parsed} :
      s.pc = .parsing command → Parses command s.args p →
      LoopStep s .parse { s with pc := .deciding p, args := p.args }
  | empty {s : Loop} {p : Parsed} :
      s.pc = .deciding p → p.numArgs = 0 → LoopStep s .empty { s with pc := .reading }
  | exit {s : Loop} {p : Parsed} :
      s.pc = .deciding p → p.isExit = true → LoopStep s .exit { s with pc := .exited }
  | cd {s : Loop} {p : Parsed} :
      s.pc = .deciding p → p.numArgs ≠ 0 → p.args 0 = some Shell.cd →
      LoopStep s .cd { s with pc := .reading }
  | fork {s : Loop} {p : Parsed} {pid : ℤ} :
      s.pc = .deciding p → p.numArgs ≠ 0 → p.isExit = false → p.args 0 ≠ some Shell.cd →
      0 < pid → pid ∉ s.children →
      LoopStep s (.fork pid) { s with
        pc := .forked pid p.ampershandFlag
        copies := s.stdin.buffer.length :: s.copies
        children := insert pid s.children }
  | forkFail {s : Loop} {p : Parsed} :
      s.pc = .deciding p → p.numArgs ≠ 0 → p.isExit = false → p.args 0 ≠ some Shell.cd →
      LoopStep s (.fork (-1)) { s with pc := .forked (-1) p.ampershandFlag }
  | assign {s : Loop} {pid : ℤ} {ampershandFlag : Bool} :
      s.pc = .forked pid ampershandFlag →
      LoopStep s (.assign pid) { s with pc := .assigned pid ampershandFlag, globalPid := pid }
  | fail {s : Loop} {pid : ℤ} {ampershandFlag : Bool} :
      s.pc = .assigned pid ampershandFlag → pid < 0 → LoopStep s .fail { s with pc := .exited }
  | background {s : Loop} {pid : ℤ} :
      s.pc = .assigned pid true → 0 ≤ pid → LoopStep s .background { s with pc := .reading }
  | wait {s : Loop} {pid : ℤ} :
      s.pc = .assigned pid false → 0 ≤ pid → LoopStep s .wait { s with pc := .waiting pid }
  | reap {s : Loop} {pid : ℤ} :
      s.pc = .waiting pid →
      LoopStep s (.reap pid) { s with pc := .reading, children := s.children.erase pid }
  | stopped {s : Loop} {pid : ℤ} :
      s.pc = .waiting pid → LoopStep s .stopped { s with pc := .reading }
  | waitFail {s : Loop} {pid : ℤ} :
      s.pc = .waiting pid → LoopStep s .waitFail { s with pc := .exited }
  | signal {s : Loop} {sig : Signal} : s.pc ≠ .exited → LoopStep s (.signal sig) s
  -- a program that a child has exec'ed reads from the shared stdin or seeks in it
  | moves {s : Loop} {offset : ℕ} :
      s.copies ≠ [] →
      (s.stdin.seekable = false → s.stdin.offset ≤ offset ∧ offset ≤ s.stdin.bytes.length) →
      LoopStep s (.moves offset) { s with stdin := { s.stdin with offset := offset } }
  -- exit(0) of a child gives back the bytes that its copy of the buffer holds
  | rewinds {s : Loop} {unread : ℕ} :
      unread ∈ s.copies → LoopStep s (.rewinds unread) { s with stdin := s.stdin.rewind unread }

structure Loop.Boot (s : Loop) : Prop where
  pc : s.pc = .reading
  buffer : s.stdin.buffer = []
  copies : s.copies = []
  handed : s.handed = []
  commandHistory : s.commandHistory = blankHistory
  globalPid : s.globalPid = 0
  children : s.children = ∅

def mysh : Machine Loop Event where
  init := Loop.Boot
  step := LoopStep

def Event.own : Event → Bool
  | .moves _ => false
  | .rewinds _ => false
  | _ => true

def Event.Steady (s : Loop) : Event → Prop
  | .moves offset => offset = s.stdin.offset
  | .rewinds unread => s.stdin.rewind unread = s.stdin
  | _ => True

def steady : Machine Loop Event where
  init := Loop.Boot
  step s e s' := e.Steady s ∧ LoopStep s e s'

end Loop

section Lines
variable {lines done rest : List Line} {s0 s s' : Loop} {e : Event} {l : Line}

structure OneCommandEach (lines : List Line) (s : Loop) : Prop where
  handed : s.handed <+: lines.map Line.text
  all : s.pc = .reading → s.stdin.ahead = [] → s.handed = lines.map Line.text
  recorded : s.commandHistory = s.handed.foldl record blankHistory

def OneCommandPerLine (M : Machine Loop Event) (lines : List Line) (s0 : Loop) : Prop :=
  ∀ s, (M.started s0).Reachable s → OneCommandEach lines s

def NoExit (lines : List Line) : Prop := ∀ l ∈ lines, isExit l.text = false

def Fits (lines : List Line) : Prop :=
  ∀ pre l post, lines = pre ++ l :: post → NoExit pre → l.text.length < SIZE

structure Taken (lines done rest : List Line) (s : Loop) : Prop where
  lines : lines = done ++ rest
  handed : s.handed = done.map Line.text
  input : s.stdin.ahead = stream rest

def LoopPc.After (pc : LoopPc) (done : List Line) : Prop :=
  match pc with
  | .parsing command => ∃ pre l, done = pre ++ [l] ∧ NoExit pre ∧ command = l.text
  | .deciding p =>
    ∃ pre l, done = pre ++ [l] ∧ NoExit pre ∧ (isExit l.text = true → p.isExit = true)
  | .exited => True
  | _ => NoExit done

theorem noExit_concat {pre : List Line} (h : NoExit pre) (hl : isExit l.text = false) :
    NoExit (pre ++ [l]) := by
  intro c hc
  rcases List.mem_append.mp hc with hc | hc
  · exact h c hc
  · rwa [List.mem_singleton.mp hc]

theorem decided_noExit {p : Parsed} (h : (LoopPc.deciding p).After done)
    (hp : p.isExit = false) : NoExit done := by
  obtain ⟨pre, l, rfl, hno, hl⟩ := h
  refine noExit_concat hno ?_
  cases hexit : isExit l.text with
  | false => rfl
  | true => exact absurd (hl hexit) (by simp [hp])

theorem recorded_reachable (hboot : s0.Boot) (hs : (mysh.started s0).Reachable s) :
    s.commandHistory = s.handed.foldl record blankHistory := by
  refine hs.invariant (I := fun s => s.commandHistory = s.handed.foldl record blankHistory)
    (fun s h => ?_) fun s e s' _ h hstep => ?_
  · obtain rfl : s = s0 := h
    rw [hboot.handed, hboot.commandHistory]
    rfl
  · cases hstep with
    | read _ _ => rw [List.foldl_append, ← h]; rfl
    | _ => exact h

theorem takeLine_ne_nil {n : ℕ} {input : List Char} (hinput : input ≠ []) :
    (takeLine (n + 1) input).1 ≠ [] := by
  cases input with
  | nil => exact absurd rfl hinput
  | cons c input =>
    simp only [takeLine]
    split_ifs <;> simp

theorem fgets_ne_nil {input rest : List Char} {command : Word}
    (h : fgets SIZE input = some (command, rest)) : command ≠ [] := by
  simp only [fgets] at h
  split_ifs at h with hinput
  have hline : (takeLine (SIZE - 1) input).1 = command := congrArg Prod.fst (Option.some.inj h)
  rw [← hline]
  exact takeLine_ne_nil hinput

theorem handed_ne_nil (hboot : s0.Boot) (hs : (mysh.started s0).Reachable s) :
    ∀ command ∈ s.handed, command ≠ [] := by
  refine hs.invariant (I := fun s => ∀ command ∈ s.handed, command ≠ [])
    (fun s h => ?_) fun s e s' _ h hstep => ?_
  · obtain rfl : s = s0 := h
    simp [hboot.handed]
  · cases hstep with
    | read _ _ hget =>
      intro command hcommand
      rcases List.mem_append.mp hcommand with hmem | hmem
      · exact h command hmem
      · rw [List.mem_singleton.mp hmem]
        exact fgets_ne_nil hget
    | _ => exact h

theorem loop_lists_recent_iff (hboot : s0.Boot) (hs : (mysh.started s0).Reachable s) :
    ListsRecent s.commandHistory (s.handed.filter (· ≠ newline)) ↔
      (s.handed.filter (· ≠ newline)).length ≤ SIZE ∨
        (Ring.recent SIZE (s.handed.filter (· ≠ newline))).rotate
          ((s.handed.filter (· ≠ newline)).length % SIZE) =
        Ring.recent SIZE (s.handed.filter (· ≠ newline)) := by
  rw [recorded_reachable hboot hs]
  exact lists_recent_of_holds (recorded_holds s.handed)
    fun l hl => handed_ne_nil hboot hs l (List.mem_of_mem_filter hl)

theorem Taken.moved (h : Taken lines done rest s) {pc : LoopPc} {copies : List ℕ} {args : Args}
    {globalPid : ℤ} {children : Finset ℤ} : Taken lines done rest { s with
      pc := pc, copies := copies, args := args, globalPid := globalPid, children := children } :=
  ⟨h.lines, h.handed, h.input⟩

theorem Taken.refilled (h : Taken lines done rest s) {b : Stdin}
    (hb : b.ahead = s.stdin.ahead) : Taken lines done rest { s with stdin := b } :=
  ⟨h.lines, h.handed, hb.trans h.input⟩

theorem steady_stdin {offset : ℕ} (h : (Event.moves offset).Steady s) :
    ({ s.stdin with offset := offset } : Stdin) = s.stdin := by
  obtain rfl : offset = s.stdin.offset := h
  rfl

theorem read_ahead {command : Word} {buffer : List Char} (hready : s.stdin.ready)
    (hget : fgets SIZE s.stdin.buffer = some (command, buffer)) :
    fgets SIZE s.stdin.ahead =
      some (command, ({ s.stdin with buffer := buffer } : Stdin).ahead) := by
  rw [Stdin.fgets_ready hready, hget]
  rfl

theorem eof_ahead (hready : s.stdin.ready) (hget : fgets SIZE s.stdin.buffer = none) :
    s.stdin.ahead = [] := by
  have hnone : fgets SIZE s.stdin.ahead = none := by
    rw [Stdin.fgets_ready hready, hget]
    rfl
  by_contra hne
  simp [fgets, hne] at hnone

theorem taken_step (hfits : Fits lines) (ht : Taken lines done rest s) (hpc : s.pc.After done)
    (hstep : steady.step s e s') : ∃ done rest, Taken lines done rest s' ∧ s'.pc.After done := by
  obtain ⟨hsteady, hstep⟩ := hstep
  cases hstep with
  | fill _ _ _ _ _ => exact ⟨done, rest, ht.refilled (Stdin.fill_ahead _ _), hpc⟩
  | @read command buffer hread hready hget =>
    rw [hread] at hpc
    obtain ⟨hlines, hhanded, hinput⟩ := ht
    have hahead := read_ahead hready hget
    cases rest with
    | nil => rw [hinput] at hahead; cases hahead
    | cons l rest =>
      have hlen := hfits done l rest hlines hpc
      rw [hinput, stream_cons, fgets_short hlen] at hahead
      obtain ⟨rfl, hrest⟩ := Prod.mk.inj (Option.some.inj hahead)
      exact ⟨done ++ [l], rest, ⟨by simp [hlines], by simp [hhanded], hrest.symm⟩,
        done, l, rfl, hpc, rfl⟩
  | @parse command p hparse hp =>
    rw [hparse] at hpc
    obtain ⟨pre, l, hdone, hno, rfl⟩ := hpc
    exact ⟨done, rest, ht.moved, pre, l, hdone, hno, hp.isExit⟩
  | @empty p hdec h0 =>
    rw [hdec] at hpc
    exact ⟨done, rest, ht.moved, decided_noExit hpc (by simp [Parsed.isExit, h0])⟩
  | @cd p hdec _ hcd =>
    rw [hdec] at hpc
    exact ⟨done, rest, ht.moved, decided_noExit hpc (by simp [Parsed.isExit, hcd, exit, Shell.cd])⟩
  | fork hdec _ hexit _ _ _ =>
    rw [hdec] at hpc
    exact ⟨done, rest, ht.moved, decided_noExit hpc hexit⟩
  | forkFail hdec _ hexit _ =>
    rw [hdec] at hpc
    exact ⟨done, rest, ht.moved, decided_noExit hpc hexit⟩
  | assign h => rw [h] at hpc; exact ⟨done, rest, ht.moved, hpc⟩
  | background h _ => rw [h] at hpc; exact ⟨done, rest, ht.moved, hpc⟩
  | wait h _ => rw [h] at hpc; exact ⟨done, rest, ht.moved, hpc⟩
  | reap h => rw [h] at hpc; exact ⟨done, rest, ht.moved, hpc⟩
  | stopped h => rw [h] at hpc; exact ⟨done, rest, ht.moved, hpc⟩
  | eof _ _ _ => exact ⟨done, rest, ht.moved, trivial⟩
  | exit _ _ => exact ⟨done, rest, ht.moved, trivial⟩
  | fail _ _ => exact ⟨done, rest, ht.moved, trivial⟩
  | waitFail _ => exact ⟨done, rest, ht.moved, trivial⟩
  | signal _ => exact ⟨done, rest, ht, hpc⟩
  | moves _ _ => exact ⟨done, rest, ht.refilled (congrArg Stdin.ahead (steady_stdin hsteady)), hpc⟩
  | rewinds _ => exact ⟨done, rest, ht.refilled (congrArg Stdin.ahead hsteady), hpc⟩

theorem taken_reachable (hboot : s0.Boot) (hinput : s0.stdin.ahead = stream lines)
    (hfits : Fits lines) (hs : (steady.started s0).Reachable s) :
    ∃ done rest, Taken lines done rest s ∧ s.pc.After done := by
  refine hs.invariant (I := fun s => ∃ done rest, Taken lines done rest s ∧ s.pc.After done)
    (fun s h => ?_) fun s e s' _ h hstep => ?_
  · obtain rfl : s = s0 := h
    refine ⟨[], lines, ⟨rfl, hboot.handed, hinput⟩, ?_⟩
    rw [hboot.pc]
    exact fun l hl => absurd hl List.not_mem_nil
  · obtain ⟨done, rest, ht, hpc⟩ := h
    exact taken_step hfits ht hpc hstep

theorem mysh_of_steady (hs : (steady.started s0).Reachable s) : (mysh.started s0).Reachable s := by
  induction hs with
  | init h => exact .init h
  | step _ hstep ih => exact ih.step hstep.2

theorem command_each_of_fits (hboot : s0.Boot) (hinput : s0.stdin.ahead = stream lines)
    (hfits : Fits lines) (hs : (steady.started s0).Reachable s) : OneCommandEach lines s := by
  obtain ⟨done, rest, ⟨hlines, hhanded, hrest⟩, -⟩ := taken_reachable hboot hinput hfits hs
  refine ⟨?_, fun _ hend => ?_, recorded_reachable hboot (mysh_of_steady hs)⟩
  · rw [hhanded, hlines, List.map_append]
    exact List.prefix_append _ _
  · obtain rfl := stream_eq_nil (hrest.symm.trans hend)
    rw [hhanded, hlines, List.append_nil]

section Reading
variable {R : Loop → Prop}

def Event.reads : Event → Bool
  | .fill _ => true
  | .read => true
  | _ => false

theorem filled (hR : ∀ s e s', R s → e.reads = true → LoopStep s e s' → R s') (hs : R s)
    (hpc : s.pc = .reading) :
    ∃ b : Stdin, b.ready ∧ b.ahead = s.stdin.ahead ∧ b.seekable = s.stdin.seekable ∧
      R { s with stdin := b } := by
  induction hn : s.stdin.rest.length using Nat.strong_induction_on generalizing s with
  | _ n ih =>
    by_cases hready : s.stdin.ready
    · exact ⟨s.stdin, hready, rfl, rfl, hs⟩
    · have hpos := Stdin.chunk_pos hready
      have hnext := hR _ _ _ hs rfl (.fill hpc hready hpos (Nat.le_refl _) fun _ => rfl)
      have hlt := Stdin.fill_rest hpos (Nat.le_refl _)
      obtain ⟨b, hb, hahead, hseek, hreach⟩ := ih _ (hn ▸ hlt) hnext hpc rfl
      exact ⟨b, hb, hahead.trans (Stdin.fill_ahead _ _), hseek, hreach⟩

theorem read_command (hR : ∀ s e s', R s → e.reads = true → LoopStep s e s' → R s') (hs : R s)
    {command : Word} {rest : List Char} (hpc : s.pc = .reading)
    (hget : fgets SIZE s.stdin.ahead = some (command, rest)) :
    ∃ b : Stdin, b.ahead = rest ∧ b.seekable = s.stdin.seekable ∧ R { s with
      pc := .parsing command
      stdin := b
      handed := s.handed ++ [command]
      commandHistory := record s.commandHistory command } := by
  obtain ⟨b, hready, hahead, hseek, hreach⟩ := filled hR hs hpc
  rw [← hahead, Stdin.fgets_ready hready] at hget
  obtain ⟨⟨word, buffer⟩, hbuffer, hpair⟩ := Option.map_eq_some_iff.mp hget
  cases hpair
  exact ⟨{ b with buffer := buffer }, rfl, hseek,
    hR _ _ _ hreach rfl (.read hpc hready hbuffer)⟩

end Reading

section Resume

theorem steady_reads (s : Loop) (e : Event) (s' : Loop) (hs : (steady.started s0).Reachable s)
    (he : e.reads = true) (hstep : LoopStep s e s') : (steady.started s0).Reachable s' := by
  refine hs.step (l := e) ⟨?_, hstep⟩
  cases e <;> trivial

variable (hs : (steady.started s0).Reachable s)
include hs

theorem steady_next (hstep : LoopStep s e s') (he : e.own = true) :
    (steady.started s0).Reachable s' := by
  refine hs.step (l := e) ⟨?_, hstep⟩
  cases e <;> trivial

theorem resume_command {p : Parsed} (hpc : s.pc = .deciding p) (hexit : p.isExit = false) :
    ∃ s', (steady.started s0).Reachable s' ∧ s'.pc = .reading ∧ s'.stdin = s.stdin ∧
      s'.handed = s.handed := by
  by_cases h0 : p.numArgs = 0
  · exact ⟨_, steady_next hs (.empty hpc h0) rfl, rfl, rfl, rfl⟩
  · by_cases hcd : p.args 0 = some cd
    · exact ⟨_, steady_next hs (.cd hpc h0 hcd) rfl, rfl, rfl, rfl⟩
    · obtain ⟨b, hb⟩ := s.children.exists_le
      have hpos : 0 < max b 0 + 1 := by omega
      have hfresh : max b 0 + 1 ∉ s.children := fun hmem => by
        have := hb _ hmem
        omega
      have h1 := steady_next (steady_next hs (.fork hpc h0 hexit hcd hpos hfresh) rfl) (.assign rfl) rfl
      cases hamp : p.ampershandFlag with
      | true =>
        rw [hamp] at h1
        exact ⟨_, steady_next h1 (.background rfl (Int.le_of_lt hpos)) rfl, rfl, rfl, rfl⟩
      | false =>
        rw [hamp] at h1
        have h2 := steady_next h1 (.wait rfl (Int.le_of_lt hpos)) rfl
        exact ⟨_, steady_next h2 (.reap rfl) rfl, rfl, rfl, rfl⟩

theorem resume_line {input : List Char} (hpc : s.pc = .reading)
    (hinput : s.stdin.ahead = l.text ++ input) (hlen : l.text.length < SIZE)
    (hexit : isExit l.text = false) :
    ∃ s', (steady.started s0).Reachable s' ∧ s'.pc = .reading ∧ s'.stdin.ahead = input ∧
      s'.handed = s.handed ++ [l.text] := by
  obtain ⟨b, hb, -, h1⟩ := read_command steady_reads hs hpc (hinput ▸ fgets_short hlen input)
  obtain ⟨p, hp, hpexit⟩ := exists_parses l.text s.args hexit
  have h2 := steady_next h1 (.parse rfl hp) rfl
  obtain ⟨s', hs', hpc', hstdin, hhanded⟩ := resume_command h2 rfl hpexit
  exact ⟨s', hs', hpc', (congrArg Stdin.ahead hstdin).trans hb, hhanded⟩

end Resume

section Overlong
variable (hall : OneCommandPerLine steady lines s0)
include hall

theorem length_lt_of_read {pre post : List Line} (hlines : lines = pre ++ l :: post)
    (hs : (steady.started s0).Reachable s) (hpc : s.pc = .reading)
    (hinput : s.stdin.ahead = stream (l :: post)) (hhanded : s.handed = pre.map Line.text) :
    l.text.length < SIZE := by
  by_contra hlong
  obtain ⟨command, rest', hget, hne⟩ := fgets_long (Nat.le_of_not_lt hlong) (stream post)
  obtain ⟨b, -, -, h1⟩ := read_command steady_reads hs hpc (by rw [hinput]; exact hget)
  have hpre := (hall _ h1).handed
  rw [hlines, hhanded, List.map_append] at hpre
  obtain ⟨t, ht⟩ := hpre
  rw [List.append_assoc, List.append_cancel_left_eq, List.map_cons] at ht
  exact hne (List.cons.inj ht).1

theorem reads_line (hboot : s0.Boot) (hinput : s0.stdin.ahead = stream lines) (pre : List Line) :
    ∀ rest, lines = pre ++ rest → NoExit pre → ∃ s, (steady.started s0).Reachable s ∧
      s.pc = .reading ∧ s.stdin.ahead = stream rest ∧ s.handed = pre.map Line.text := by
  induction pre using List.reverseRecOn with
  | nil =>
    rintro rest rfl -
    exact ⟨s0, .init rfl, hboot.pc, hinput, hboot.handed⟩
  | append_singleton pre l ih =>
    intro rest hlines hno
    rw [List.append_assoc, List.singleton_append] at hlines
    obtain ⟨s, hs, hpc, hs_input, hhanded⟩ :=
      ih (l :: rest) hlines fun c hc => hno c (List.mem_append_left _ hc)
    have hlen := length_lt_of_read hall hlines hs hpc hs_input hhanded
    obtain ⟨s', hs', hpc', hinput', hhanded'⟩ :=
      resume_line hs hpc hs_input hlen (hno l (by simp))
    exact ⟨s', hs', hpc', hinput', by rw [hhanded', hhanded, List.map_append]; rfl⟩

theorem fits_of_command_each (hboot : s0.Boot) (hinput : s0.stdin.ahead = stream lines) :
    Fits lines := by
  intro pre l post hlines hno
  obtain ⟨s, hs, hpc, hs_input, hhanded⟩ := reads_line hall hboot hinput pre (l :: post) hlines hno
  exact length_lt_of_read hall hlines hs hpc hs_input hhanded

end Overlong

theorem one_command_per_line_iff (hboot : s0.Boot) (hinput : s0.stdin.ahead = stream lines) :
    OneCommandPerLine steady lines s0 ↔ Fits lines :=
  ⟨fun hall => fits_of_command_each hall hboot hinput,
    fun hfits _ hs => command_each_of_fits hboot hinput hfits hs⟩

def freshStdin (seekable : Bool) (bytes : List Char) : Stdin :=
  ⟨seekable, bytes, 0, [], 4096, by decide⟩

def freshLoop (stdin : Stdin) : Loop :=
  ⟨.reading, stdin, [], [], blankHistory, fun _ => none, 0, ∅⟩

theorem fresh_boot (seekable : Bool) (bytes : List Char) :
    (freshLoop (freshStdin seekable bytes)).Boot := ⟨rfl, rfl, rfl, rfl, rfl, rfl, rfl⟩

def lineOf (body : Word) (h : body.all (fun c => c ≠ '\n' && c ≠ '\x00') = true) : Line where
  body := body
  clean c hc := by simpa using List.all_eq_true.mp h c hc

def lsLine : Line := lineOf ['l', 's'] rfl

theorem short_line_whole :
    OneCommandPerLine steady [lsLine] (freshLoop (freshStdin true (stream [lsLine]))) := by
  refine (one_command_per_line_iff (fresh_boot _ _) rfl).mpr fun pre l post hlines _ => ?_
  have hmem : l ∈ [lsLine] := by rw [hlines]; simp
  rw [List.mem_singleton.mp hmem]
  decide

theorem letters_clean (n : ℕ) : ∀ c ∈ List.replicate n 'a', c ≠ '\n' ∧ c ≠ '\x00' := by
  intro c hc
  rw [List.eq_of_mem_replicate hc]
  decide

def longLine : Line := ⟨List.replicate SIZE 'a', letters_clean SIZE⟩

def missingLine : Line := lineOf ['n', 'o', 's', 'u', 'c', 'h'] rfl

def upLine : Line := lineOf ['c', 'd', ' ', '.', '.'] rfl

def missingParsed : Parsed := (parseArguments missingLine.text (fun _ => none) false false).get rfl

def upParsed : Parsed := (parseArguments upLine.text missingParsed.args false false).get rfl

theorem parses_get {command : Word} {args : Args} {p : Parsed}
    (h : parseArguments command args false false = some p) : Parses command args p :=
  fun _ hq => Option.some.inj (h.symm.trans hq)

theorem failed_command_repeats :
    ∃ s, (mysh.started (freshLoop (freshStdin true (stream [missingLine, upLine])))).Reachable s ∧
      s.handed = [missingLine.text, upLine.text, upLine.text] := by
  have hup (buffer : List Char) :
      fgets SIZE (upLine.text ++ buffer) = some (upLine.text, buffer) := fgets_short (by decide) _
  have h0 : (mysh.started (freshLoop (freshStdin true (stream [missingLine, upLine])))).Reachable _ :=
    .init rfl
  have h1 := h0.step (@LoopStep.fill _ 13 rfl (by decide) (by decide) (by decide) fun _ => rfl)
  have h2 := h1.step (.read rfl (by decide) (fgets_short (l := missingLine) (by decide) upLine.text))
  have h3 := h2.step (.parse rfl (parses_get (p := missingParsed) (Option.some_get _).symm))
  have h4 := h3.step (@LoopStep.fork _ _ 5 rfl (by decide) (by decide) (by decide) (by decide)
    (by decide))
  have h5 := (h4.step (.assign rfl)).step (.wait rfl (by decide))
  have h6 := (h5.step (@LoopStep.rewinds _ 6 (by decide))).step (.reap rfl)
  have h7 := h6.step (.read rfl (by decide) (hup []))
  have h8 := h7.step (.parse rfl (parses_get (p := upParsed) (Option.some_get _).symm))
  have h9 := h8.step (.cd rfl (by decide) (by decide))
  have h10 := h9.step (@LoopStep.fill _ 6 rfl (by decide) (by decide) (by decide) fun _ => rfl)
  exact ⟨_, h10.step (.read rfl (by decide) (hup [])), rfl⟩

theorem long_line_split :
    ¬ OneCommandPerLine mysh [longLine] (freshLoop (freshStdin false (stream [longLine]))) ∧
      ¬ OneCommandPerLine mysh [missingLine, upLine]
        (freshLoop (freshStdin true (stream [missingLine, upLine]))) := by
  constructor
  · intro hall
    have hlen := fits_of_command_each (fun s hs => hall s (mysh_of_steady hs)) (fresh_boot _ _) rfl
      [] longLine [] rfl (by simp [NoExit])
    rw [longLine.length_text] at hlen
    exact absurd hlen (by simp [longLine])
  · intro hall
    obtain ⟨s, hs, hhanded⟩ := failed_command_repeats
    have hpre := (hall s hs).handed.length_le
    rw [hhanded] at hpre
    exact absurd hpre (by decide)

end Lines
end Shell
