import Cs345.Shell.Prompt

namespace Shell

section Handlers

def forward (globalPid : ℤ) : Option ℤ := if globalPid ≠ 0 then some globalPid else none

def signalIntHandler (globalPid : ℤ) : Option ℤ := forward globalPid

def signalTermHandler (globalPid : ℤ) : Option ℤ := forward globalPid

def handler : Signal → ℤ → Option ℤ
  | .int => signalIntHandler
  | .term => signalTermHandler

theorem handler_eq (sig : Signal) : handler sig = forward := by cases sig <;> rfl

def KillsOwnChild (s : Loop) (sig : Signal) : Prop :=
  ∀ pid ∈ handler sig s.globalPid, 0 < pid ∧ pid ∈ s.children

theorem killsOwnChild_iff {s : Loop} {sig : Signal} :
    KillsOwnChild s sig ↔ s.globalPid = 0 ∨ 0 < s.globalPid ∧ s.globalPid ∈ s.children := by
  rw [KillsOwnChild, handler_eq]
  by_cases h : s.globalPid = 0 <;> simp [forward, h]

end Handlers

section Past

def lastFork (past : List Event) : Option (ℤ × List Event) :=
  past.foldl (fun last e =>
    match e with
    | .assign pid => some (pid, [])
    | e => last.map fun (pid, since) => (pid, since ++ [e])) none

def Awaited (past : List Event) : Prop :=
  match lastFork past with
  | none => True
  | some (pid, since) => 0 < pid ∧ (.reap pid ∈ since → .fork pid ∈ since)

variable {past : List Event} {e : Event}

theorem lastFork_assign (past : List Event) (pid : ℤ) :
    lastFork (past ++ [.assign pid]) = some (pid, []) := by
  simp [lastFork]

theorem lastFork_other (h : ∀ pid, e ≠ .assign pid) (past : List Event) :
    lastFork (past ++ [e]) = (lastFork past).map fun (pid, since) => (pid, since ++ [e]) := by
  cases e with
  | assign pid => exact absurd rfl (h pid)
  | _ => simp [lastFork]

end Past

section Tracked
variable {past : List Event} {s s' : Loop} {e : Event}

def Settled (past : List Event) (pid : ℤ) : Prop :=
  ∃ since, lastFork past = some (pid, since) ∧ ∀ q, .fork q ∉ since

def LoopPc.Child (pc : LoopPc) (past : List Event) (children : Finset ℤ) : Prop :=
  match pc with
  | .forked pid _ => pid = -1 ∨ pid ∈ children
  | .assigned pid _ => Settled past pid
  | .waiting pid => Settled past pid
  | _ => True

def Watched (past : List Event) (globalPid : ℤ) (children : Finset ℤ) : Prop :=
  match lastFork past with
  | none => globalPid = 0
  | some (pid, since) => globalPid = pid ∧ pid ≠ 0 ∧
      (pid ∈ children ↔ 0 < pid ∧ (.reap pid ∈ since → .fork pid ∈ since))

structure Tracked (past : List Event) (s : Loop) : Prop where
  positive : ∀ pid ∈ s.children, 0 < pid
  watched : Watched past s.globalPid s.children
  child : s.pc.Child past s.children

theorem killsOwnChild_iff_awaited (h : Tracked past s) (sig : Signal) :
    KillsOwnChild s sig ↔ Awaited past := by
  have hw := h.watched
  rw [killsOwnChild_iff]
  simp only [Watched, Awaited] at hw ⊢
  cases hl : lastFork past with
  | none =>
    simp only [hl] at hw
    exact iff_of_true (.inl hw) trivial
  | some last =>
    simp only [hl] at hw
    obtain ⟨hpid, hne, hiff⟩ := hw
    rw [hpid, hiff]
    simp [hne]

def Event.quiet : Event → Bool
  | .fork _ => false
  | .assign _ => false
  | .reap _ => false
  | _ => true

theorem quiet_ne (he : e.quiet = true) (pid : ℤ) :
    e ≠ .assign pid ∧ e ≠ .fork pid ∧ e ≠ .reap pid := by
  refine ⟨?_, ?_, ?_⟩
  all_goals
    rintro rfl
    cases he

theorem Watched.other {globalPid : ℤ} {children children' : Finset ℤ}
    (h : Watched past globalPid children) (he : ∀ pid, e ≠ .assign pid)
    (hmem : ∀ pid since, pid ≠ 0 → lastFork past = some (pid, since) →
      (pid ∈ children ↔ 0 < pid ∧ (.reap pid ∈ since → .fork pid ∈ since)) →
      (pid ∈ children' ↔ 0 < pid ∧ (.reap pid ∈ since ++ [e] → .fork pid ∈ since ++ [e]))) :
    Watched (past ++ [e]) globalPid children' := by
  simp only [Watched, lastFork_other he] at h ⊢
  cases hl : lastFork past with
  | none => simpa only [hl, Option.map_none] using h
  | some last =>
    simp only [hl, Option.map_some] at h ⊢
    obtain ⟨hg, hne, hiff⟩ := h
    exact ⟨hg, hne, hmem last.1 last.2 hne hl hiff⟩

theorem Watched.quiet {globalPid : ℤ} {children : Finset ℤ}
    (h : Watched past globalPid children) (he : e.quiet = true) :
    Watched (past ++ [e]) globalPid children := by
  refine h.other (fun pid => (quiet_ne he pid).1) fun pid since _ _ hiff => ?_
  obtain ⟨-, hfork, hreap⟩ := quiet_ne he pid
  simpa [hfork.symm, hreap.symm] using hiff

theorem Settled.quiet {pid : ℤ} (h : Settled past pid) (he : e.quiet = true) :
    Settled (past ++ [e]) pid := by
  obtain ⟨since, hl, hno⟩ := h
  refine ⟨since ++ [e], by simp [lastFork_other fun q => (quiet_ne he q).1, hl], fun q hq => ?_⟩
  rcases List.mem_append.mp hq with hq | hq
  · exact hno q hq
  · exact (quiet_ne he q).2.1 (List.mem_singleton.mp hq).symm

theorem Watched.fork {globalPid pid : ℤ} {children : Finset ℤ}
    (h : Watched past globalPid children) (hpid : 0 < pid) :
    Watched (past ++ [.fork pid]) globalPid (insert pid children) := by
  refine h.other nofun fun q since _ _ hiff => ?_
  by_cases heq : q = pid
  · simp [heq, hpid]
  · simp [heq, hiff]

theorem Watched.forkFail {globalPid : ℤ} {children : Finset ℤ}
    (h : Watched past globalPid children) : Watched (past ++ [.fork (-1)]) globalPid children := by
  refine h.other nofun fun q since _ _ hiff => hiff.trans (and_congr_right fun hpos => ?_)
  have hfork : q ≠ -1 := by omega
  simp [hfork]

theorem Watched.reap {globalPid pid : ℤ} {children : Finset ℤ}
    (h : Watched past globalPid children) (hs : Settled past pid) :
    Watched (past ++ [.reap pid]) globalPid (children.erase pid) := by
  obtain ⟨since', hl', hno⟩ := hs
  refine h.other nofun fun q since _ hl _ => ?_
  obtain ⟨rfl, rfl⟩ : pid = q ∧ since' = since := by simpa using hl'.symm.trans hl
  simp [hno]

theorem Watched.assign {pid : ℤ} {children : Finset ℤ} (hpos : ∀ q ∈ children, 0 < q)
    (hpid : pid = -1 ∨ pid ∈ children) : Watched (past ++ [.assign pid]) pid children := by
  simp only [Watched, lastFork_assign]
  rcases hpid with rfl | hmem
  · refine ⟨trivial, by decide, ?_⟩
    have hno : (-1 : ℤ) ∉ children := fun hmem => absurd (hpos _ hmem) (by decide)
    simp [hno]
  · have := hpos pid hmem
    exact ⟨trivial, by omega, by simp [hmem, this]⟩

theorem Tracked.quiet (h : Tracked past s) (he : e.quiet = true) {pc : LoopPc} {stdin : Stdin}
    {copies : List ℕ} {handed : List Word} {commandHistory : History} {args : Args}
    (hpc : pc.Child (past ++ [e]) s.children) : Tracked (past ++ [e])
      ⟨pc, stdin, copies, handed, commandHistory, args, s.globalPid, s.children⟩ :=
  ⟨h.positive, h.watched.quiet he, hpc⟩

theorem Tracked.child_quiet (h : Tracked past s) (he : e.quiet = true) :
    s.pc.Child (past ++ [e]) s.children := by
  have hc := h.child
  cases hpc : s.pc with
  | forked pid amp => rw [hpc] at hc; exact hc
  | assigned pid amp => rw [hpc] at hc; exact Settled.quiet hc he
  | waiting pid => rw [hpc] at hc; exact Settled.quiet hc he
  | _ => trivial

theorem tracked_step (h : Tracked past s) (hstep : LoopStep s e s') :
    Tracked (past ++ [e]) s' := by
  have hc := h.child
  cases hstep with
  | fill _ _ _ _ _ => exact h.quiet rfl (h.child_quiet rfl)
  | read _ _ _ => exact h.quiet rfl trivial
  | eof _ _ _ => exact h.quiet rfl trivial
  | parse _ _ => exact h.quiet rfl trivial
  | empty _ _ => exact h.quiet rfl trivial
  | exit _ _ => exact h.quiet rfl trivial
  | cd _ _ _ => exact h.quiet rfl trivial
  | @fork p pid _ _ _ _ hpid _ =>
    refine ⟨fun q hq => ?_, h.watched.fork hpid, .inr (Finset.mem_insert_self _ _)⟩
    rcases Finset.mem_insert.mp hq with rfl | hq
    · exact hpid
    · exact h.positive q hq
  | forkFail _ _ _ _ => exact ⟨h.positive, h.watched.forkFail, .inl rfl⟩
  | assign hpc =>
    rw [hpc] at hc
    exact ⟨h.positive, .assign h.positive hc, [], lastFork_assign _ _, by simp⟩
  | fail _ _ => exact h.quiet rfl trivial
  | background _ _ => exact h.quiet rfl trivial
  | wait hpc _ =>
    rw [hpc] at hc
    exact h.quiet rfl (Settled.quiet hc rfl)
  | reap hpc =>
    rw [hpc] at hc
    exact ⟨fun q hq => h.positive q (Finset.mem_of_mem_erase hq), h.watched.reap hc, trivial⟩
  | stopped _ => exact h.quiet rfl trivial
  | waitFail _ => exact h.quiet rfl trivial
  | signal _ => exact h.quiet rfl (h.child_quiet rfl)
  | moves _ _ => exact h.quiet rfl (h.child_quiet rfl)
  | rewinds _ => exact h.quiet rfl (h.child_quiet rfl)

theorem tracked_boot (h : s.Boot) : Tracked [] s := by
  refine ⟨fun pid hpid => ?_, h.globalPid, ?_⟩
  · rw [h.children] at hpid
    exact absurd hpid (Finset.notMem_empty pid)
  · rw [h.pc]
    trivial

end Tracked

section Delivered
variable {s : Loop} {past : List Event} {tr : List (Event × Loop)}

def AtSignals (P : List Event → Loop → Signal → Prop) :
    List Event → Loop → List (Event × Loop) → Prop
  | _, _, [] => True
  | past, s, (e, t) :: tr =>
    (∀ sig, e = .signal sig → P past s sig) ∧ AtSignals P (past ++ [e]) t tr

theorem at_signals_iff (hrun : mysh.Run s tr) (h : Tracked past s) :
    AtSignals (fun _ => KillsOwnChild) past s tr ↔
      AtSignals (fun past _ _ => Awaited past) past s tr := by
  induction hrun generalizing past with
  | nil => exact Iff.rfl
  | cons hstep _ ih =>
    exact and_congr (forall₂_congr fun sig _ => killsOwnChild_iff_awaited h sig)
      (ih (tracked_step h hstep))

theorem signals_own_children_iff (hboot : s.Boot) (hrun : mysh.Run s tr) :
    AtSignals (fun _ => KillsOwnChild) [] s tr ↔
      AtSignals (fun past _ _ => Awaited past) [] s tr :=
  at_signals_iff hrun (tracked_boot hboot)

def lsParsed : Parsed := (parseArguments lsLine.text (fun _ => none) false false).get rfl

theorem parses_ls : Parses lsLine.text (fun _ => none) lsParsed :=
  fun _ hq => Option.some.inj ((Option.some_get _).trans hq)

theorem waiting_child_hit : ∃ tr, mysh.Run (freshLoop (freshStdin false (stream [lsLine]))) tr ∧
    .signal .int ∈ tr.map Prod.fst ∧
    AtSignals (fun _ => KillsOwnChild) [] (freshLoop (freshStdin false (stream [lsLine]))) tr := by
  have hrun : mysh.Run (freshLoop (freshStdin false (stream [lsLine]))) _ :=
    .cons (@LoopStep.fill _ 3 rfl (by decide) (by decide) (by decide) nofun) <|
    .cons (.read rfl (by decide) rfl) <| .cons (.parse rfl parses_ls) <|
    .cons (@LoopStep.fork _ _ 5 rfl (by decide) (by decide) (by decide) (by decide) (by decide)) <|
    .cons (.assign rfl) <| .cons (.wait rfl (by decide)) <|
    .cons (@LoopStep.signal _ .int nofun) (.nil _)
  refine ⟨_, hrun, by simp, (signals_own_children_iff (fresh_boot _ _) hrun).mpr ?_⟩
  simp [AtSignals, Awaited, lastFork]

theorem reaped_child_hit : ∃ tr, mysh.Run (freshLoop (freshStdin false (stream [lsLine]))) tr ∧
    ¬ AtSignals (fun _ => KillsOwnChild) [] (freshLoop (freshStdin false (stream [lsLine]))) tr := by
  have hrun : mysh.Run (freshLoop (freshStdin false (stream [lsLine]))) _ :=
    .cons (@LoopStep.fill _ 3 rfl (by decide) (by decide) (by decide) nofun) <|
    .cons (.read rfl (by decide) rfl) <| .cons (.parse rfl parses_ls) <|
    .cons (@LoopStep.fork _ _ 5 rfl (by decide) (by decide) (by decide) (by decide) (by decide)) <|
    .cons (.assign rfl) <| .cons (.wait rfl (by decide)) <| .cons (.reap rfl) <|
    .cons (@LoopStep.signal _ .int nofun) (.nil _)
  refine ⟨_, hrun, fun hall => ?_⟩
  simp only [AtSignals] at hall
  obtain ⟨-, -, -, -, -, -, -, hsig, -⟩ := hall
  have hown := killsOwnChild_iff.mp (hsig .int rfl)
  simp at hown

end Delivered
end Shell
