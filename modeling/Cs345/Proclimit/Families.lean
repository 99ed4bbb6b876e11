import Cs345.Proclimit.Process

namespace Proclimit
variable {R : Type} {init : TaskPtr} {s s' : System R} {k k' : Kernel R}

def Consistent (k : Kernel R) : Prop :=
  ∀ p q t u, k.task p = some t → k.task q = some u → t.rootPid = u.rootPid → t.rootPid ≠ -1 →
    t.timeLimit = u.timeLimit ∧ t.timeInterval = u.timeInterval

def Gathered (k : Kernel R) (pid limit interval : ℤ) : Prop :=
  ∀ p t, Targets k pid p → k.task p = some t → ∀ q u, k.task q = some u → u.rootPid = t.pid →
    ¬ Forest.Reaches (kids k.task) p q → u.timeLimit = limit ∧ u.timeInterval = interval

def KeepsFamilies (s : System R) : Event → Prop
  | .setproclimit caller pid limit interval =>
    limit ≤ interval → Gathered { s.kernel with current := caller } pid limit interval
  | _ => True

theorem consistent_of_copies
    (h : ∀ p u, k'.task p = some u → ∃ q t, k.task q = some t ∧ SameFamily t u)
    (hc : Consistent k) : Consistent k' := by
  intro p q t u ht hu heq hne
  obtain ⟨p0, t0, ht0, hroot, hlim, hint⟩ := h p t ht
  obtain ⟨q0, u0, hu0, hroot', hlim', hint'⟩ := h q u hu
  have := hc p0 q0 t0 u0 ht0 hu0 (by rw [hroot, hroot', heq]) (by rwa [hroot])
  rwa [hlim, hlim', hint, hint'] at this

theorem fork_copies {caller child q : TaskPtr} {t u : TaskStruct R} {pid : ℤ}
    (ht : k.task caller = some t) (hu : (forkTask k caller child t pid).task q = some u) :
    ∃ p v, k.task p = some v ∧ SameFamily v u := by
  rcases fork_task ht hu with ⟨-, -, h⟩ | ⟨-, v, hv, -, h⟩
  · exact ⟨caller, t, ht, h⟩
  · exact ⟨q, v, hv, h⟩

theorem consistent_fork {caller child : TaskPtr} {t : TaskStruct R} {pid : ℤ}
    (ht : k.task caller = some t) (hc : Consistent k) :
    Consistent (forkTask k caller child t pid) :=
  consistent_of_copies (fun _ _ hu => fork_copies ht hu) hc

theorem consistent_exit {p : TaskPtr} (hc : Consistent k) : Consistent (exitTask k init p) := by
  refine consistent_of_copies (fun q u hu => ?_) hc
  obtain ⟨-, t, ht, rfl⟩ := exit_task hu
  exact ⟨q, t, ht, rfl, rfl, rfl⟩

section Set
variable {p : TaskPtr} {t : TaskStruct R} {limit interval : ℤ}

theorem consistent_set_iff (he : SetEffect k k' p limit interval) (ht : k.task p = some t)
    (hpid : 0 ≤ t.pid) (hc : Consistent k) :
    Consistent k' ↔ ∀ q u, k.task q = some u → u.rootPid = t.pid →
      ¬ Forest.Reaches (kids k.task) p q → u.timeLimit = limit ∧ u.timeInterval = interval := by
  constructor
  · intro hc' q u hu hroot hq
    have hp : k'.task p = some (t.setLimits t.pid limit interval) := by
      rw [he.inside t ht p (.refl p), ht, Option.map_some]
    exact hc' q p u _ ((he.outside q hq).trans hu) hp hroot (by omega)
  · intro hout q r u v hu hv heq hne
    rcases he.task_some ht hu with ⟨-, hur, hul, hui⟩ | ⟨hq, hu0⟩ <;>
      rcases he.task_some ht hv with ⟨-, hvr, hvl, hvi⟩ | ⟨hr, hv0⟩
    · rw [hul, hui, hvl, hvi]; exact ⟨rfl, rfl⟩
    · obtain ⟨hl, hi⟩ := hout r v hv0 (heq.symm.trans hur) hr
      rw [hul, hui, hl, hi]; exact ⟨rfl, rfl⟩
    · obtain ⟨hl, hi⟩ := hout q u hu0 (heq.trans hvr) hq
      rw [hvl, hvi, hl, hi]; exact ⟨rfl, rfl⟩
    · exact hc q r u v hu0 hv0 heq hne

end Set

theorem consistent_step_iff {e : Event} (hs : Sound init s) (hc : Consistent s.kernel)
    (hstep : Step init s e s') : Consistent s'.kernel ↔ KeepsFamilies s e := by
  cases hstep with
  | @fork caller child t pid ht _ _ _ => exact iff_of_true (consistent_fork ht hc) trivial
  | @exit p _ _ => exact iff_of_true (consistent_exit hc) trivial
  | @setproclimit caller pid limit interval ret n k hcall h =>
    have hk := hs.wellFormed.run_as hcall
    simp only [KeepsFamilies, Gathered]
    rcases sysSetproclimit_cases h with ⟨-, rfl, hno⟩ | ⟨-, hle, p, hp, he⟩
    · refine iff_of_true hc fun hle p t hp ht => absurd ⟨hle, ?_⟩ hno
      rcases hp with ⟨h1, -⟩ | ⟨h1, hmem, u, hu, hpid⟩
      · exact .inl h1
      · exact .inr ⟨h1, p, hmem, u, hu, hpid⟩
    · obtain ⟨t, ht⟩ := Option.isSome_iff_exists.mp (hk.targets_live hp)
      rw [consistent_set_iff he ht (hs.pids p t ht).1 hc]
      constructor
      · intro hout _ q u hq hu
        obtain rfl := hk.targets_unique hp hq
        obtain rfl := Option.some.inj (ht.symm.trans hu)
        exact hout
      · exact fun hall => hall hle p t hp ht

theorem boot_consistent (hs : Boot init s) : Consistent s.kernel :=
  fun p _ t _ ht _ _ hne => absurd (hs.noFamily p t ht).1 hne

theorem families_consistent_iff {tr : List (Event × System R)} (hs : Boot init s)
    (hrun : (families R init).Run s tr) :
    (∀ m ∈ tr, Consistent m.2.kernel) ↔
      ∀ m ∈ Machine.moves s tr, KeepsFamilies m.1 m.2.1 :=
  hrun.holds_iff (.init hs) (boot_consistent hs)
    fun _ _ _ hr hc hstep => consistent_step_iff (sound_reachable hr) hc hstep

def orphaned : System Unit := perform (perform forked (.setproclimit 2 2 1 2)) (.exit 3)

theorem orphan_run : (families Unit 1).Run bootSystem
    (performAll bootSystem (forks ++ [.setproclimit 2 2 1 2, .exit 3])) := by
  refine .cons (Step.fork rfl rfl (by decide) (by decide)) ?_
  refine .cons (Step.fork rfl rfl (by decide) (by decide)) ?_
  refine .cons (Step.fork rfl rfl (by decide) (by decide)) ?_
  refine .cons (Step.setproclimit (n := 5) rfl rfl) ?_
  refine .cons (Step.exit rfl fun h => ?_) (.nil _)
  have hin := h.within (V := fun q => q = 3 ∨ q = 4) ?_ (.inl rfl)
  · revert hin
    decide
  · rintro q (rfl | rfl) c hc
    · exact .inr (List.mem_singleton.mp hc)
    · cases hc

theorem noFamily_forked {q : TaskPtr} {u : TaskStruct Unit} (hu : forked.kernel.task q = some u) :
    u.rootPid = -1 := by
  obtain ⟨q, v, hv, hvu, -⟩ :=
    fork_copies (k := (forks.take 2).foldl perform bootSystem |>.kernel) rfl hu
  obtain ⟨q, w, hw, hwv, -⟩ :=
    fork_copies (k := (forks.take 1).foldl perform bootSystem |>.kernel) rfl hv
  obtain ⟨q, x, hx, hxw, -⟩ := fork_copies (k := bootSystem.kernel) rfl hw
  rw [← hvu, ← hwv, ← hxw]
  rcases boot_task hx with ⟨-, rfl⟩ | ⟨-, rfl⟩ <;> rfl

theorem orphan_mem :
    (.exit 3, orphaned) ∈ performAll bootSystem (forks ++ [.setproclimit 2 2 1 2, .exit 3]) := by
  simp [forks, performAll, orphaned, forked]

theorem orphaned_consistent : Consistent orphaned.kernel := by
  refine (families_consistent_iff boot_system orphan_run).mpr (fun m hm => ?_) _ orphan_mem
  simp only [forks, performAll, Machine.moves, List.cons_append, List.nil_append, List.mem_cons,
    List.not_mem_nil, or_false] at hm
  rcases hm with rfl | rfl | rfl | rfl | rfl
  · trivial
  · trivial
  · trivial
  · rintro - p t (⟨h, -⟩ | ⟨-, -, u, hu, hpid⟩) ht q v hv hroot -
    · cases h
    · obtain rfl := Option.some.inj (hu.symm.trans ht)
      have := noFamily_forked hv
      omega
  · trivial

theorem orphan_keeps_old_limits : ¬ ∀ s : System Unit, (families Unit 1).Reachable s →
    Consistent s.kernel := by
  intro h
  have hr : (families Unit 1).Reachable orphaned :=
    orphan_run.reachable (.init boot_system) _ orphan_mem
  have hset : (families Unit 1).step orphaned (.setproclimit 2 2 3 4)
      (perform orphaned (.setproclimit 2 2 3 4)) := Step.setproclimit (n := 5) rfl rfl
  have hroot := h _ (hr.step hset) 2 4 _ _ rfl rfl rfl (by decide)
  exact absurd hroot.1 (by decide)

end Proclimit
