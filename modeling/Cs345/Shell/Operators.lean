import Cs345.Shell.Wiring

namespace Shell
variable {σ : Type} {W : World σ} {v : ArgVector} {s s' : State σ}

def PassesNoOperator (W : World σ) (v : ArgVector) : Prop :=
  ∀ s, (child W v).Reachable s → ∀ argv ∈ s.execs, ∀ w ∈ argv, isOperator w = false

theorem isOperator_false {w : Word} (hbar : w ≠ bar) (hop : isRedir w = false) :
    isOperator w = false := by simp [isOperator, hbar, hop]

theorem bar_operator : isOperator bar = true := by decide

theorem stages_of_not_mem (h : bar ∉ v.words) : v.stages = [v.words] :=
  List.splitOn_eq_singleton h

theorem pipeCounter_of_not_mem (h : bar ∉ v.words) : v.pipeCounter = 0 := by
  rw [ArgVector.pipeCounter_eq, List.count_eq_zero]
  exact h

theorem stage_no_operator (hplain : v.words.any isRedir = false) {argv : List Word}
    (h : argv ∈ v.stages) {w : Word} (hw : w ∈ argv) : isOperator w = false := by
  obtain ⟨hmem, hbar⟩ := Fields.mem_of_mem_splitOnP h hw
  exact isOperator_false (by simpa using hbar) (by simpa using List.any_eq_false.mp hplain w hmem)

theorem stripped_no_operator (h : bar ∉ v.words) {w : Word} (hw : w ∈ stripped v.words) :
    isOperator w = false :=
  isOperator_false (fun hb => h (hb ▸ (stripped_sublist _).subset hw)) (not_redir_of_stripped _ w hw)

section Redirected

def LineInv (W : World σ) (v : ArgVector) (s : State σ) : Prop :=
  (∀ argv ∈ s.execs, argv = stripped v.words) ∧ (∀ j, (s.stage j).pc = .unborn) ∧
    match s.pc with
    | .start => s.nextPipe = 0
    | .redirExec => s.nextPipe = 0 ∧ words s.tempargs = stripped v.words
    | .loop i _ => i = 0 ∧ W.redirExec = false ∧ s.nextPipe = 0
    | .dupLast _ => W.redirExec = false ∧ s.nextPipe = 0
    | .lastArg => W.redirExec = false ∧ s.nextPipe = 0
    | .lastExec => W.redirExec = false ∧ s.tempargs 0 = v.args 0
    | .running _ => True
    | .exited => True
    | _ => False

theorem nextArg_whole (hbar : bar ∉ v.words) (hpos : 0 < v.numArgs) (t : Args) :
    ∃ t' c, nextArg v.args t 0 = some (t', c) ∧ words t' = v.words := by
  have hsplit : (wordsAt v.args 0).splitOn bar = [v.words] := stages_of_not_mem hbar
  have hne : v.words ≠ [] := by
    rw [← List.length_pos_iff, v.length_words]
    exact hpos
  obtain ⟨t', hnext, hwords, -⟩ := nextArg_spec t (Nat.zero_le _) hsplit hne
  exact ⟨t', _, hnext, hwords⟩

theorem first_of_words {t : Args} (h : words t = v.words) : t 0 = v.args 0 := by
  rw [← words_head t, h]
  exact words_head v.args

theorem lineInv_step {a : Actor} (hany : v.redirection.any = true) (hnamed : FileNamed v.words)
    (hpos : 0 < v.numArgs) (hbar : bar ∉ v.words)
    (hok : W.redirExec = true ∨ v.args 0 = some history) (h : LineInv W v s)
    (hstep : Step W v s a s') : LineInv W v s' := by
  obtain ⟨hex, hst, hm⟩ := h
  have hk := pipeCounter_of_not_mem hbar
  cases hstep with
  | redirect hpc _ hr =>
    rw [hpc] at hm
    exact ⟨hex, hst, hm, redirections_tempargs hany hnamed hpos hr⟩
  | redirExec hpc =>
    rw [hpc] at hm
    obtain ⟨hnp, hwords⟩ := hm
    refine ⟨fun argv hargv => ?_, hst, ?_⟩
    · rcases List.mem_append.mp hargv with hold | hnew
      · exact hex argv hold
      · rw [List.mem_singleton.mp hnew, hwords]
    · cases hw : W.redirExec with
      | true => exact trivial
      | false => exact ⟨rfl, rfl, hnp⟩
  | plain _ hno => rw [hany] at hno; cases hno
  | pipe hpc hi _ _ _ => rw [hk] at hi; cases hi
  | nextArg hpc _ => rw [hpc] at hm; exact hm.elim
  | fork hpc => rw [hpc] at hm; exact hm.elim
  | waitpid hpc _ => rw [hpc] at hm; exact hm.elim
  | close hpc => rw [hpc] at hm; exact hm.elim
  | done hpc _ => rw [hpc] at hm; exact ⟨hex, hst, hm.2⟩
  | dupLast hpc => rw [hpc] at hm; exact ⟨hex, hst, hm⟩
  | @lastArg c t hpc hnext =>
    rw [hpc] at hm
    obtain ⟨hw, hnp⟩ := hm
    obtain ⟨t', c', heq, hwords⟩ := nextArg_whole hbar hpos s.tempargs
    rw [hnp] at hnext
    cases heq.symm.trans hnext
    exact ⟨hex, hst, hw, first_of_words hwords⟩
  | @lastExec cmd hpc hcmd =>
    rw [hpc] at hm
    obtain ⟨hw, hfirst⟩ := hm
    have hhist : cmd = history := by
      rcases hok with hok | hok
      · rw [hw] at hok; cases hok
      · exact Option.some.inj (hcmd.symm.trans (hfirst.trans hok))
    refine ⟨fun argv hargv => ?_, hst, trivial⟩
    rw [execLog, if_pos hhist, List.append_nil] at hargv
    exact hex argv hargv
  | @run p p' act c hpc _ _ =>
    refine ⟨hex, hst, ?_⟩
    by_cases hact : act = .exit
    · simp only [hact, if_true]
    · simp only [hact, if_false]
  | @stageMove j st h => simp [Stage.move, hst j] at h
  | @stageExec j cmd hpc _ => rw [hst j] at hpc; cases hpc
  | @stageRun j p p' act c hpc _ _ => rw [hst j] at hpc; cases hpc

theorem lineInv_reachable (hany : v.redirection.any = true) (hnamed : FileNamed v.words)
    (hpos : 0 < v.numArgs) (hbar : bar ∉ v.words)
    (hok : W.redirExec = true ∨ v.args 0 = some history) (hs : (child W v).Reachable s) :
    LineInv W v s := by
  refine hs.invariant (fun s h => ?_) fun _ _ _ _ h hstep =>
    lineInv_step hany hnamed hpos hbar hok h hstep
  refine ⟨by simp [h.execs], h.unborn, ?_⟩
  rw [h.pc]
  exact h.nextPipe

theorem redirected_exec (W : World σ) (hany : v.redirection.any = true)
    (hnamed : FileNamed v.words) (hpos : 0 < v.numArgs) :
    ∃ s, (child W v).Reachable s ∧ s.pc = .redirExec ∧ words s.tempargs = stripped v.words ∧
      s.nextPipe = 0 := by
  have hboot : (child W v).Reachable bootState := .init boot_state
  obtain ⟨fds, fs, table, t, -, hr⟩ := redirections_total (v := v) (bootState : State σ).fs
    (inv_boot (v := v) boot_state).bounded bootState.tempargs hnamed hpos
  exact ⟨_, hboot.step (.redirect rfl hany hr), rfl, redirections_tempargs hany hnamed hpos hr, rfl⟩

theorem bar_passed (hany : v.redirection.any = true) (hnamed : FileNamed v.words)
    (hpos : 0 < v.numArgs) (hbar : bar ∈ v.words) : ¬ PassesNoOperator W v := by
  intro hall
  obtain ⟨s, hs, hpc, hwords, -⟩ := redirected_exec W hany hnamed hpos
  have hmem : bar ∈ stripped v.words := hnamed.mem_stripped hbar (by decide) bar_operator
  have := hall _ (hs.step (.redirExec hpc)) (stripped v.words) (by simp [hwords]) bar hmem
  rw [bar_operator] at this
  cases this

theorem redirection_passed (hany : v.words.any isRedir = true) (hnamed : FileNamed v.words)
    (hpos : 0 < v.numArgs) (hbar : bar ∉ v.words) (hfail : W.redirExec = false)
    (hhist : v.args 0 ≠ some history) : ¬ PassesNoOperator W v := by
  intro hall
  obtain ⟨s, hs, hpc, -, hnp⟩ := redirected_exec W (v.redirection_any.trans hany) hnamed hpos
  have h1 := hs.step (.redirExec hpc)
  simp only [hfail] at h1
  have h2 := h1.step (Step.done rfl (by rw [pipeCounter_of_not_mem hbar]; exact Nat.lt_irrefl 0))
  have h3 := h2.step (Step.dupLast rfl)
  obtain ⟨t, c, hnext, hwords⟩ := nextArg_whole hbar hpos s.tempargs
  rw [← hnp] at hnext
  have h4 := h3.step (Step.lastArg rfl hnext)
  obtain ⟨cmd, hcmd⟩ := v.some_of_lt hpos
  have h5 := h4.step (Step.lastExec rfl ((first_of_words hwords).trans hcmd))
  have hne : cmd ≠ history := fun h => hhist (hcmd.trans (congrArg some h))
  obtain ⟨w, hw, hop⟩ := List.any_eq_true.mp hany
  have := hall _ h5 v.words (by simp [execLog, hne, hwords]) w hw
  simp [isOperator, hop] at this

end Redirected

theorem no_operator_passed_iff (hnamed : FileNamed v.words)
    (hcmd : ∀ st ∈ v.stages, stripped st ≠ []) :
    PassesNoOperator W v ↔
      v.words.any isRedir = false ∨
        (bar ∉ v.words ∧ (W.redirExec = true ∨ v.args 0 = some history)) := by
  have hne : ∀ st ∈ v.stages, st ≠ [] := by
    rintro st hst rfl
    exact hcmd [] hst rfl
  have hpos : 0 < v.numArgs := by
    rw [← v.length_words, List.length_pos_iff]
    intro h
    exact hne [] (by simp [ArgVector.stages, h]) rfl
  cases hany : v.words.any isRedir with
  | false =>
    refine iff_of_true (fun s hs argv hargv w hw => ?_) (.inl rfl)
    exact stage_no_operator hany
      ((inv_reachable (v.redirection_any.trans hany) hne hs).execs argv hargv) hw
  | true =>
    have hredir := v.redirection_any.trans hany
    by_cases hbar : bar ∈ v.words
    · exact iff_of_false (bar_passed hredir hnamed hpos hbar) (by simp [hbar])
    · constructor
      · intro hall
        by_contra hno
        simp only [hbar, not_false_eq_true, true_and, reduceCtorEq, false_or, not_or,
          Bool.not_eq_true] at hno
        exact redirection_passed hany hnamed hpos hbar hno.1 hno.2 hall
      · rintro (h | ⟨-, hok⟩) s hs argv hargv w hw
        · cases h
        · obtain rfl := (lineInv_reachable hredir hnamed hpos hbar hok hs).1 argv hargv
          exact stripped_no_operator hbar hw

section Sample

def catFrom : ArgVector := .ofWords [['c', 'a', 't'], less, ['f']] (by decide)

theorem redirected_cat : PassesNoOperator idle catFrom :=
  (no_operator_passed_iff (by decide) (by decide)).mpr (.inr ⟨by decide, .inl rfl⟩)

def catLine : Word :=
  ['c', 'a', 't', ' ', '<', ' ', 'f', ' ', '|', ' ', 'c', 'a', 't', '\n']

def catParsed : Parsed := (parseArguments catLine (fun _ => none) false false).get rfl

def catVector : ArgVector :=
  Parsed.vector (p := catParsed) (Option.some_get _).symm

theorem cat_gets_bar : FileNamed catVector.words ∧ (∀ st ∈ catVector.stages, stripped st ≠ []) ∧
    ¬ PassesNoOperator idle catVector := by
  have hnamed : FileNamed catVector.words := by decide
  exact ⟨hnamed, by decide, bar_passed (by decide) hnamed (by decide) (by decide)⟩

end Sample
end Shell
