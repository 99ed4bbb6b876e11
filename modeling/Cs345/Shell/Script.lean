import Cs345.Shell.Signals
import Cs345.Shell.Tokens
import Mathlib.Data.Finset.Card

namespace Shell

section Meaning

inductive Action where
  | chdir (directory : Option Word)
  | launch (words : List Word) (background : Bool)
deriving DecidableEq

inductive Meaning where
  | nothing
  | leave
  | act (a : Action)
deriving DecidableEq

def meaning (words : List Word) (background : Bool) : Meaning :=
  match words with
  | [] => .nothing
  | w :: _ =>
    if w = exit then .leave
    else if w = cd then .act (.chdir words[1]?)
    else .act (.launch words background)

def Line.words (l : Line) : List Word := (Fields.nonempty isDelim l.text).filter (!isFlag ·)

def Line.background (l : Line) : Bool := ampersand ∈ Fields.nonempty isDelim l.text

def Line.meaning (l : Line) : Meaning := Shell.meaning l.words l.background

def script : List Line → List Action
  | [] => []
  | l :: lines =>
    match l.meaning with
    | .nothing => script lines
    | .leave => []
    | .act a => a :: script lines

def Legible : List Line → Prop
  | [] => True
  | l :: lines => l.text.length < SIZE ∧ delims l.text + 1 < SIZE ∧ (l.meaning ≠ .leave → Legible lines)

instance decidableLegible : DecidablePred Legible
  | [] => isTrue trivial
  | _ :: lines =>
    have := decidableLegible lines
    inferInstanceAs (Decidable (_ ∧ _ ∧ (_ → _)))

end Meaning

section Understood
variable {l : Line} {p : Parsed}

structure Understood (l : Line) (p : Parsed) : Prop where
  numArgs : p.numArgs = l.words.length
  args : ∀ i ≤ l.words.length, p.args i = l.words[i]?
  words : Shell.words p.args = l.words
  ampershandFlag : p.ampershandFlag = l.background

theorem Tokenized.understood (h : Tokenized l.text p (Fields.nonempty isDelim l.text))
    (hlt : p.numArgs < SIZE) : Understood l p := by
  have hnum : p.numArgs = l.words.length := h.numArgs
  have hargs : ∀ i ≤ l.words.length, p.args i = l.words[i]? := by
    intro i hi
    rcases Nat.lt_or_eq_of_le hi with hi | rfl
    · exact h.args i (hnum ▸ hi)
    · rw [← hnum, h.null, hnum, List.getElem?_eq_none (Nat.le_refl _)]
  refine ⟨hnum, hargs, wordsAt_eq _ 0 (fun i hi => ?_) (by omega), ?_⟩
  · rw [Nat.zero_add]
    exact hargs i hi
  · rw [Line.background, Bool.eq_iff_iff, h.ampershandFlag, decide_eq_true_iff]

theorem Parses.understood {args : Args} (h : Parses l.text args p)
    (hdelims : delims l.text + 1 < SIZE) : Understood l p := by
  obtain ⟨q, hq, hkept⟩ := parseArguments_short hdelims args
  obtain rfl := h q hq
  exact (tokenized_of_kept hkept).understood (Parsed.vector hq).lt_size

theorem Understood.first (h : Understood l p) : p.args 0 = l.words.head? := by
  rw [h.args 0 (Nat.zero_le _), List.head?_eq_getElem?]

theorem Understood.nothing_iff (h : Understood l p) : l.meaning = .nothing ↔ p.numArgs = 0 := by
  rw [h.numArgs, Line.meaning]
  cases l.words with
  | nil => simp [meaning]
  | cons w ws =>
    simp only [meaning]
    split_ifs <;> simp

theorem Understood.leave_iff (h : Understood l p) : l.meaning = .leave ↔ p.isExit = true := by
  have hfirst := h.first
  have hnum := h.numArgs
  rw [Line.meaning, Parsed.isExit]
  cases hw : l.words with
  | nil => simp [meaning, hnum, hw]
  | cons w ws =>
    rw [hw] at hfirst hnum
    have hpos : p.numArgs ≠ 0 := by simp [hnum]
    simp only [meaning, hfirst, List.head?_cons]
    split_ifs with hexit <;> simp [hexit, hpos]

theorem Understood.cd_meaning (h : Understood l p) (hpos : p.numArgs ≠ 0)
    (hcd : p.args 0 = some cd) : l.meaning = .act (.chdir (p.args 1)) := by
  have hfirst := h.first
  have hnum := h.numArgs
  rw [Line.meaning]
  cases hw : l.words with
  | nil =>
    rw [hw] at hnum
    exact absurd hnum hpos
  | cons w ws =>
    rw [hw, hcd] at hfirst
    obtain rfl : cd = w := Option.some.inj hfirst
    have harg := h.args 1 (by simp [hw])
    rw [hw] at harg
    simp [meaning, harg, cd, exit]

theorem Understood.launch_meaning (h : Understood l p) (hpos : p.numArgs ≠ 0)
    (hexit : p.isExit = false) (hcd : p.args 0 ≠ some cd) :
    l.meaning = .act (.launch (Shell.words p.args) p.ampershandFlag) := by
  have hleave : l.meaning ≠ .leave := by simp [h.leave_iff, hexit]
  have hfirst := h.first
  have hnum := h.numArgs
  rw [h.words, h.ampershandFlag]
  rw [Line.meaning] at hleave ⊢
  cases hw : l.words with
  | nil =>
    rw [hw] at hnum
    exact absurd hnum hpos
  | cons w ws =>
    rw [hw] at hfirst hleave
    have hne : w ≠ cd := by
      rintro rfl
      exact hcd hfirst
    simp only [meaning] at hleave ⊢
    split_ifs at hleave ⊢ with hx
    · exact absurd rfl hleave
    · rfl

theorem isExit_iff (hdelims : delims l.text + 1 < SIZE) :
    isExit l.text = true ↔ l.meaning = .leave := by
  obtain ⟨p, hp, hkept⟩ := parseArguments_short hdelims fun _ => none
  rw [isExit_of_parse hp]
  exact ((tokenized_of_kept hkept).understood (Parsed.vector hp).lt_size).leave_iff.symm

end Understood

section Performed
variable {lines rest : List Line} {s0 s s' : Loop} {e : Event} {tr : List (Event × Loop)}

def action (s : Loop) (e : Event) : Option Action :=
  match s.pc, e with
  | .deciding p, .cd => some (.chdir (p.args 1))
  | .deciding p, .fork pid =>
    if 0 < pid then some (.launch (words p.args) p.ampershandFlag) else none
  | _, _ => none

def performed (s0 : Loop) (tr : List (Event × Loop)) : List Action := Machine.trace action s0 tr

def Event.closing (e : Event) : Prop := e = .exit ∨ e = .eof

def Event.acts : Event → Bool
  | .cd => true
  | .fork _ => true
  | .exit => true
  | .eof => true
  | _ => false

def Ahead (s : Loop) (todo : List Action) : Prop :=
  ∃ rest, s.stdin.ahead = stream rest ∧ Legible rest ∧ todo = script rest

def Owed (s : Loop) (todo : List Action) : Prop :=
  match s.pc with
  | .parsing command => ∃ l rest, command = l.text ∧ s.stdin.ahead = stream rest ∧ Legible (l :: rest) ∧
      todo = script (l :: rest)
  | .deciding p => ∃ l rest, Understood l p ∧ s.stdin.ahead = stream rest ∧ Legible (l :: rest) ∧
      todo = script (l :: rest)
  | .forked pid _ => 0 ≤ pid → Ahead s todo
  | .assigned pid _ => 0 ≤ pid → Ahead s todo
  | .exited => True
  | _ => Ahead s todo

variable {todo : List Action}

theorem action_silent (h : e.acts = false) : action s e = none ∧ ¬ e.closing := by
  constructor
  · cases hpc : s.pc with
    | deciding p =>
      cases e with
      | cd => cases h
      | fork pid => cases h
      | _ => simp [action, hpc]
    | _ => simp [action, hpc]
  · rintro (rfl | rfl) <;> cases h

theorem Owed.refilled (h : Owed s todo) {b : Stdin} (hb : b.ahead = s.stdin.ahead) :
    Owed { s with stdin := b } todo := by
  simp only [Owed, Ahead] at h ⊢
  rw [hb]
  exact h

theorem owed_step (h : Owed s todo) (hstep : steady.step s e s') :
    ∃ rest, Owed s' rest ∧ todo = (action s e).toList ++ rest ∧ (e.closing → rest = []) := by
  obtain ⟨hsteady, hstep⟩ := hstep
  have howed := h
  simp only [Owed] at h
  have hsame {s' : Loop} (hsilent : e.acts = false) (h' : Owed s' todo) :
      ∃ rest, Owed s' rest ∧ todo = (action s e).toList ++ rest ∧ (e.closing → rest = []) := by
    obtain ⟨hnone, hopen⟩ := action_silent (s := s) hsilent
    exact ⟨todo, h', by rw [hnone]; rfl, fun hcl => absurd hcl hopen⟩
  cases hstep with
  | fill _ _ _ _ _ => exact hsame rfl (howed.refilled (Stdin.fill_ahead _ _))
  | @read command buffer hpc hready hget =>
    rw [hpc] at h
    obtain ⟨lines, hin, hleg, htodo⟩ := h
    have hahead := read_ahead hready hget
    cases lines with
    | nil => rw [hin] at hahead; cases hahead
    | cons l lines =>
      rw [hin, stream_cons, fgets_short hleg.1] at hahead
      obtain ⟨rfl, hrest⟩ := Prod.mk.inj (Option.some.inj hahead)
      exact hsame rfl ⟨l, lines, rfl, hrest.symm, hleg, htodo⟩
  | eof hpc hready hget =>
    rw [hpc] at h
    obtain ⟨lines, hin, hleg, rfl⟩ := h
    obtain rfl := stream_eq_nil (hin.symm.trans (eof_ahead hready hget))
    exact ⟨[], trivial, by simp [action, hpc, script], fun _ => rfl⟩
  | parse hpc hparse =>
    rw [hpc] at h
    obtain ⟨l, lines, rfl, hin, hleg, htodo⟩ := h
    exact hsame rfl ⟨l, lines, hparse.understood hleg.2.1, hin, hleg, htodo⟩
  | empty hpc h0 =>
    rw [hpc] at h
    obtain ⟨l, lines, hl, hin, hleg, rfl⟩ := h
    have hm := hl.nothing_iff.mpr h0
    refine hsame rfl ⟨lines, hin, hleg.2.2 (by simp [hm]), ?_⟩
    simp only [script, hm]
  | exit hpc hexit =>
    rw [hpc] at h
    obtain ⟨l, lines, hl, hin, hleg, rfl⟩ := h
    have hm := hl.leave_iff.mpr hexit
    exact ⟨[], trivial, by simp [action, hpc, script, hm], fun _ => rfl⟩
  | cd hpc hpos hcd =>
    rw [hpc] at h
    obtain ⟨l, lines, hl, hin, hleg, rfl⟩ := h
    have hm := hl.cd_meaning hpos hcd
    refine ⟨script lines, ⟨lines, hin, hleg.2.2 (by simp [hm]), rfl⟩, ?_, by simp [Event.closing]⟩
    simp only [script, hm, action, hpc]
    rfl
  | @fork p pid hpc hpos hexit hcd hpid _ =>
    rw [hpc] at h
    obtain ⟨l, lines, hl, hin, hleg, rfl⟩ := h
    have hm := hl.launch_meaning hpos hexit hcd
    refine ⟨script lines, fun _ => ⟨lines, hin, hleg.2.2 (by simp [hm]), rfl⟩, ?_,
      by simp [Event.closing]⟩
    simp only [script, hm, action, hpc, if_pos hpid]
    rfl
  | forkFail hpc _ _ _ =>
    exact ⟨todo, fun hpid => absurd hpid (by decide), by simp [action, hpc], by simp [Event.closing]⟩
  | assign hpc =>
    rw [hpc] at h
    exact hsame rfl h
  | fail _ _ => exact hsame rfl trivial
  | background hpc hpid =>
    rw [hpc] at h
    exact hsame rfl (h hpid)
  | wait hpc hpid =>
    rw [hpc] at h
    exact hsame rfl (h hpid)
  | reap hpc =>
    rw [hpc] at h
    exact hsame rfl h
  | stopped hpc =>
    rw [hpc] at h
    exact hsame rfl h
  | waitFail _ => exact hsame rfl trivial
  | signal _ => exact hsame rfl h
  | moves _ _ => exact hsame rfl (howed.refilled (congrArg Stdin.ahead (steady_stdin hsteady)))
  | rewinds _ => exact hsame rfl (howed.refilled (congrArg Stdin.ahead hsteady))

theorem eof_step (hpc : s.pc = .reading) (h : s.stdin.ahead = []) :
    LoopStep s .eof { s with pc := .exited } := by
  obtain ⟨hbuffer, hrest⟩ := List.append_eq_nil_iff.mp h
  exact .eof hpc (.inr (.inr hrest)) (by rw [hbuffer]; rfl)

theorem closing_reached (hs : (steady.started s0).Reachable s) (hpc : s.pc = .reading)
    (hinput : s.stdin.ahead = stream lines) (hleg : Legible lines) :
    ∃ t e u, (steady.started s0).Reachable t ∧ steady.step t e u ∧ e.closing := by
  induction lines generalizing s with
  | nil => exact ⟨s, .eof, _, hs, ⟨trivial, eof_step hpc hinput⟩, .inr rfl⟩
  | cons l lines ih =>
    obtain ⟨hlen, hdelims, hrest⟩ := hleg
    by_cases hm : l.meaning = .leave
    · have hget : fgets SIZE s.stdin.ahead = some (l.text, stream lines) := by
        rw [hinput, stream_cons, fgets_short hlen]
      obtain ⟨b, -, -, h1⟩ := read_command steady_reads hs hpc hget
      obtain ⟨p, hp, -⟩ := parseArguments_short hdelims s.args
      have hparses : Parses l.text s.args p := parses_get hp
      have h2 := steady_next h1 (.parse rfl hparses) rfl
      have hexit := (hparses.understood hdelims).leave_iff.mp hm
      exact ⟨_, .exit, _, h2, ⟨trivial, .exit rfl hexit⟩, .inl rfl⟩
    · have hexit : isExit l.text = false := by
        rw [Bool.eq_false_iff, Ne, isExit_iff hdelims]
        exact hm
      obtain ⟨s', hs', hpc', hinput', -⟩ := resume_line hs hpc hinput hlen hexit
      exact ih hs' hpc' hinput' (hrest hm)

theorem script_followed (hboot : s0.Boot) (hinput : s0.stdin.ahead = stream lines)
    (hleg : Legible lines) :
    (∀ tr, steady.Run s0 tr → performed s0 tr <+: script lines ∧
      ((∃ p ∈ tr, p.1.closing) → performed s0 tr = script lines)) ∧
    ∃ tr, steady.Run s0 tr ∧ ∃ p ∈ tr, p.1.closing := by
  constructor
  · intro tr hrun
    have howed : Owed s0 (script lines) := by
      simp only [Owed, hboot.pc]
      exact ⟨lines, hinput, hleg, rfl⟩
    exact hrun.trace_prefix (C := Event.closing) (fun _ _ _ _ hstep h => owed_step h hstep) howed
  · obtain ⟨t, e, u, ht, hstep, hclose⟩ := closing_reached (.init rfl) hboot.pc hinput hleg
    obtain ⟨tr, hrun, rfl⟩ := Machine.exists_run ht
    exact ⟨tr ++ [(e, u)], hrun.append (.cons hstep (.nil _)), (e, u), by simp, hclose⟩

end Performed

section Children
variable {s0 s s' : Loop} {e : Event} {tr : List (Event × Loop)}

def Loop.abandoned (s : Loop) : Finset ℤ :=
  match s.pc with
  | .forked pid false => s.children.erase pid
  | .assigned pid false => s.children.erase pid
  | .waiting pid => s.children.erase pid
  | _ => s.children

def leavesBehind (m : Loop × Event × Loop) : Bool :=
  match m.1.pc, m.2.1 with
  | .deciding p, .fork pid => p.ampershandFlag && 0 < pid
  | _, .stopped => true
  | _, .waitFail => true
  | _, _ => false

def LoopPc.Current (pc : LoopPc) (children : Finset ℤ) : Prop :=
  match pc with
  | .forked pid _ => pid < 0 ∨ pid ∈ children
  | .assigned pid _ => pid < 0 ∨ pid ∈ children
  | .waiting pid => pid ∈ children
  | _ => True

structure Counted (s : Loop) : Prop where
  current : s.pc.Current s.children
  positive : ∀ pid ∈ s.children, 0 < pid

theorem abandoned_step (h : Counted s) (hstep : LoopStep s e s') : Counted s' ∧
    s'.abandoned.card = s.abandoned.card + if leavesBehind (s, e, s') then 1 else 0 := by
  obtain ⟨hcur, hpos⟩ := h
  cases hstep with
  | fill hpc _ _ _ _ => exact ⟨⟨hcur, hpos⟩, by simp [Loop.abandoned, leavesBehind, hpc]⟩
  | read hpc _ _ => exact ⟨⟨trivial, hpos⟩, by simp [Loop.abandoned, leavesBehind, hpc]⟩
  | eof hpc _ _ => exact ⟨⟨trivial, hpos⟩, by simp [Loop.abandoned, leavesBehind, hpc]⟩
  | parse hpc _ => exact ⟨⟨trivial, hpos⟩, by simp [Loop.abandoned, leavesBehind, hpc]⟩
  | empty hpc _ => exact ⟨⟨trivial, hpos⟩, by simp [Loop.abandoned, leavesBehind, hpc]⟩
  | exit hpc _ => exact ⟨⟨trivial, hpos⟩, by simp [Loop.abandoned, leavesBehind, hpc]⟩
  | cd hpc _ _ => exact ⟨⟨trivial, hpos⟩, by simp [Loop.abandoned, leavesBehind, hpc]⟩
  | @fork p pid hpc _ _ _ hpid hfresh =>
    refine ⟨⟨.inr (Finset.mem_insert_self _ _), fun q hq => ?_⟩, ?_⟩
    · rcases Finset.mem_insert.mp hq with rfl | hq
      · exact hpid
      · exact hpos q hq
    · cases hamp : p.ampershandFlag with
      | true => simp [Loop.abandoned, leavesBehind, hpc, hamp, hpid, Finset.card_insert_of_notMem hfresh]
      | false => simp [Loop.abandoned, leavesBehind, hpc, hamp, Finset.erase_insert hfresh]
  | @forkFail p hpc _ _ _ =>
    have hfresh : (-1 : ℤ) ∉ s.children := fun hmem => absurd (hpos _ hmem) (by decide)
    refine ⟨⟨.inl (by decide), hpos⟩, ?_⟩
    cases hamp : p.ampershandFlag <;>
      simp [Loop.abandoned, leavesBehind, hpc, hamp, Finset.erase_eq_of_notMem hfresh]
  | @assign pid flag hpc =>
    rw [hpc] at hcur
    exact ⟨⟨hcur, hpos⟩, by cases flag <;> simp [Loop.abandoned, leavesBehind, hpc]⟩
  | @fail pid flag hpc hneg =>
    have hgone : pid ∉ s.children := fun hmem => Int.lt_asymm hneg (hpos _ hmem)
    refine ⟨⟨trivial, hpos⟩, ?_⟩
    cases flag <;> simp [Loop.abandoned, leavesBehind, hpc, Finset.erase_eq_of_notMem hgone]
  | background hpc _ => exact ⟨⟨trivial, hpos⟩, by simp [Loop.abandoned, leavesBehind, hpc]⟩
  | wait hpc hpid =>
    rw [hpc] at hcur
    exact ⟨⟨hcur.resolve_left (Int.not_lt.mpr hpid), hpos⟩,
      by simp [Loop.abandoned, leavesBehind, hpc]⟩
  | reap hpc =>
    exact ⟨⟨trivial, fun q hq => hpos q (Finset.mem_of_mem_erase hq)⟩,
      by simp [Loop.abandoned, leavesBehind, hpc]⟩
  | stopped hpc =>
    rw [hpc] at hcur
    refine ⟨⟨trivial, hpos⟩, ?_⟩
    simp [Loop.abandoned, leavesBehind, hpc, Finset.card_erase_add_one hcur]
  | waitFail hpc =>
    rw [hpc] at hcur
    refine ⟨⟨trivial, hpos⟩, ?_⟩
    simp [Loop.abandoned, leavesBehind, hpc, Finset.card_erase_add_one hcur]
  | signal _ => exact ⟨⟨hcur, hpos⟩, by cases hpc : s.pc <;> simp [leavesBehind, hpc]⟩
  | moves _ _ =>
    exact ⟨⟨hcur, hpos⟩, by cases hpc : s.pc <;> simp [Loop.abandoned, leavesBehind, hpc]⟩
  | rewinds _ =>
    exact ⟨⟨hcur, hpos⟩, by cases hpc : s.pc <;> simp [Loop.abandoned, leavesBehind, hpc]⟩

theorem abandoned_kept {pid : ℤ} (h : Counted s) (hpid : pid ∈ s.abandoned)
    (hstep : LoopStep s e s') : pid ∈ s'.abandoned ∧ e ≠ .reap pid := by
  cases hstep with
  | fill hpc _ _ _ _ => exact ⟨by simpa [Loop.abandoned, hpc] using hpid, nofun⟩
  | read hpc _ _ => exact ⟨by simpa [Loop.abandoned, hpc] using hpid, nofun⟩
  | eof hpc _ _ => exact ⟨by simpa [Loop.abandoned, hpc] using hpid, nofun⟩
  | parse hpc _ => exact ⟨by simpa [Loop.abandoned, hpc] using hpid, nofun⟩
  | empty hpc _ => exact ⟨by simpa [Loop.abandoned, hpc] using hpid, nofun⟩
  | exit hpc _ => exact ⟨by simpa [Loop.abandoned, hpc] using hpid, nofun⟩
  | cd hpc _ _ => exact ⟨by simpa [Loop.abandoned, hpc] using hpid, nofun⟩
  | @fork p q hpc _ _ _ _ hfresh =>
    have hmem : pid ∈ s.children := by simpa [Loop.abandoned, hpc] using hpid
    have hne : pid ≠ q := fun heq => hfresh (heq ▸ hmem)
    refine ⟨?_, nofun⟩
    cases p.ampershandFlag <;> simp [Loop.abandoned, hmem, hne]
  | @forkFail p hpc _ _ _ =>
    have hmem : pid ∈ s.children := by simpa [Loop.abandoned, hpc] using hpid
    have hne : pid ≠ -1 := fun heq => absurd (h.positive pid hmem) (by omega)
    refine ⟨?_, nofun⟩
    cases p.ampershandFlag <;> simp [Loop.abandoned, hmem, hne]
  | @assign q flag hpc => exact ⟨by cases flag <;> simpa [Loop.abandoned, hpc] using hpid, nofun⟩
  | @fail q flag hpc _ =>
    refine ⟨?_, nofun⟩
    cases flag with
    | true => simpa [Loop.abandoned, hpc] using hpid
    | false =>
      simp only [Loop.abandoned, hpc] at hpid
      exact Finset.mem_of_mem_erase hpid
  | background hpc _ => exact ⟨by simpa [Loop.abandoned, hpc] using hpid, nofun⟩
  | wait hpc _ => exact ⟨by simpa [Loop.abandoned, hpc] using hpid, nofun⟩
  | @reap q hpc =>
    simp only [Loop.abandoned, hpc] at hpid
    exact ⟨hpid, fun heq => Finset.ne_of_mem_erase hpid (Event.reap.inj heq).symm⟩
  | stopped hpc =>
    simp only [Loop.abandoned, hpc] at hpid
    exact ⟨Finset.mem_of_mem_erase hpid, nofun⟩
  | waitFail hpc =>
    simp only [Loop.abandoned, hpc] at hpid
    exact ⟨Finset.mem_of_mem_erase hpid, nofun⟩
  | signal _ => exact ⟨hpid, nofun⟩
  | moves _ _ => exact ⟨hpid, nofun⟩
  | rewinds _ => exact ⟨hpid, nofun⟩

theorem counted_run (h : Counted s) (hrun : mysh.Run s tr) : Counted (Machine.last s tr) := by
  induction hrun with
  | nil => exact h
  | cons hstep _ ih => exact ih (abandoned_step h hstep).1

theorem abandoned_run {pid : ℤ} (h : Counted s) (hpid : pid ∈ s.abandoned)
    (hrun : mysh.Run s tr) :
    pid ∈ (Machine.last s tr).abandoned ∧ ∀ p ∈ tr, p.1 ≠ .reap pid := by
  induction hrun with
  | nil => exact ⟨hpid, fun _ hp => absurd hp List.not_mem_nil⟩
  | cons hstep _ ih =>
    obtain ⟨hmem, hne⟩ := abandoned_kept h hpid hstep
    obtain ⟨hlast, hrest⟩ := ih (abandoned_step h hstep).1 hmem
    exact ⟨hlast, List.forall_mem_cons.mpr ⟨hne, hrest⟩⟩

theorem counted_boot (hboot : s0.Boot) : Counted s0 :=
  ⟨by rw [hboot.pc]; trivial, fun pid hpid => by simp [hboot.children] at hpid⟩

theorem abandoned_children (hboot : s0.Boot) (hrun : mysh.Run s0 tr) :
    (Machine.last s0 tr).abandoned.card = (Machine.moves s0 tr).countP leavesBehind ∧
      ∀ pid ∈ (Machine.last s0 tr).abandoned, ∀ later, mysh.Run (Machine.last s0 tr) later →
        ∀ p ∈ later, p.1 ≠ .reap pid := by
  have hcounted := counted_boot hboot
  refine ⟨?_, fun pid hpid later hlater =>
    (abandoned_run (counted_run hcounted hrun) hpid hlater).2⟩
  have hnone : s0.abandoned.card = 0 := by simp [Loop.abandoned, hboot.pc, hboot.children]
  have hcount := hrun.countP_eq (b := leavesBehind) (μ := fun s => s.abandoned.card) hcounted
    fun _ _ _ h hstep => abandoned_step h hstep
  rw [hcount, hnone, Nat.zero_add]

end Children

section Sample

def sampleLines : List Line :=
  [lineOf ['l', 's', ' ', '&'] rfl, lineOf ['c', 'd', '\t', 'd'] rfl, lineOf ['e', 'x', 'i', 't'] rfl,
    lineOf ['p', 's'] rfl]

theorem sample_script :
    script sampleLines = [.launch [['l', 's']] true, .chdir (some ['d'])] := by decide

theorem sample_performed :
    ∃ tr, steady.Run (freshLoop (freshStdin true (stream sampleLines))) tr ∧
      performed (freshLoop (freshStdin true (stream sampleLines))) tr =
        [.launch [['l', 's']] true, .chdir (some ['d'])] := by
  obtain ⟨hall, tr, hrun, hclose⟩ := script_followed (fresh_boot true (stream sampleLines)) rfl
    (show Legible sampleLines by decide)
  exact ⟨tr, hrun, ((hall tr hrun).2 hclose).trans sample_script⟩

theorem stopped_abandoned :
    ∃ tr, mysh.Run (freshLoop (freshStdin false (stream [lsLine]))) tr ∧
      5 ∈ (Machine.last (freshLoop (freshStdin false (stream [lsLine]))) tr).abandoned ∧
      (Machine.last (freshLoop (freshStdin false (stream [lsLine]))) tr).abandoned.card = 1 ∧
      ∀ later, mysh.Run (Machine.last (freshLoop (freshStdin false (stream [lsLine]))) tr) later →
        ∀ p ∈ later, p.1 ≠ .reap 5 := by
  have hrun : mysh.Run (freshLoop (freshStdin false (stream [lsLine]))) _ :=
    .cons (@LoopStep.fill _ 3 rfl (by decide) (by decide) (by decide) nofun) <|
    .cons (.read rfl (by decide) rfl) <| .cons (.parse rfl parses_ls) <|
    .cons (@LoopStep.fork _ _ 5 rfl (by decide) (by decide) (by decide) (by decide) (by decide)) <|
    .cons (.assign rfl) <| .cons (.wait rfl (by decide)) <| .cons (.stopped rfl) (.nil _)
  obtain ⟨hcard, hnever⟩ := abandoned_children (fresh_boot _ _) hrun
  refine ⟨_, hrun, ?_, hcard.trans rfl, hnever 5 ?_⟩
  all_goals exact Finset.mem_insert_self 5 ∅

end Sample
end Shell
