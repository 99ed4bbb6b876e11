import Cs345.Proclimit.Process

namespace Proclimit
variable {R : Type} {init : TaskPtr} {s s' : System R} {k k' : Kernel R}

theorem SameFamily.trans {t u v : TaskStruct R} (h : SameFamily t u) (h' : SameFamily u v) :
    SameFamily t v := ⟨h.1.trans h'.1, h.2.1.trans h'.2.1, h.2.2.trans h'.2.2⟩

theorem SameFamily.symm {t u : TaskStruct R} (h : SameFamily t u) : SameFamily u t :=
  ⟨h.1.symm, h.2.1.symm, h.2.2.symm⟩

def Linked (k : Kernel R) : Prop :=
  ∀ q u, k.task q = some u → u.rootPid ≠ -1 → u.pid = u.rootPid ∨
    ∃ p t, q ∈ kids k.task p ∧ k.task p = some t ∧ SameFamily t u

theorem linked_boot (hs : Boot init s) : Linked s.kernel :=
  fun q u hu hne => absurd (hs.noFamily q u hu).1 hne

section Fork
variable {caller child : TaskPtr} {t : TaskStruct R} {pid : ℤ}

theorem fork_live_family (pid : ℤ) {p : TaskPtr} {v : TaskStruct R} (ht : k.task caller = some t)
    (hp : p ≠ child) (hv : k.task p = some v) :
    ∃ w, (forkTask k caller child t pid).task p = some w ∧ SameFamily w v := by
  have hsome : ((forkTask k caller child t pid).task p).isSome = true := by
    rw [fork_live p hp ht, hv]
    rfl
  obtain ⟨w, hw⟩ := Option.isSome_iff_exists.mp hsome
  rcases fork_task ht hw with ⟨h, -⟩ | ⟨-, x, hx, -, h⟩
  · exact absurd h hp
  · obtain rfl := Option.some.inj (hv.symm.trans hx)
    exact ⟨w, hw, h.symm⟩

theorem linked_fork (ht : k.task caller = some t) (hc : k.task child = none)
    (hl : Linked k) : Linked (forkTask k caller child t pid) := by
  have hdead {p : TaskPtr} {v : TaskStruct R} (hv : k.task p = some v) : p ≠ child := by
    rintro rfl
    rw [hc] at hv
    cases hv
  intro q u hu hroot
  rcases fork_task ht hu with ⟨rfl, -, hsame⟩ | ⟨hq, v, hv, hpid, hsame⟩
  · obtain ⟨w, hw, hwt⟩ := fork_live_family pid ht (hdead ht) ht
    refine .inr ⟨caller, w, ?_, hw, hwt.trans hsame⟩
    rw [kids_fork ht, if_neg (hdead ht), if_pos rfl]
    exact List.mem_append_right _ (List.mem_singleton.mpr rfl)
  · rcases hl q v hv (hsame.1 ▸ hroot) with h | ⟨p, x, hqp, hx, hxv⟩
    · exact .inl (hpid.symm.trans (h.trans hsame.1))
    · obtain ⟨w, hw, hwx⟩ := fork_live_family pid ht (hdead hx) hx
      refine .inr ⟨p, w, ?_, hw, hwx.trans (hxv.trans hsame)⟩
      rw [kids_fork ht, if_neg (hdead hx)]
      split_ifs with hp
      · exact List.mem_append_left _ (hp ▸ hqp)
      · exact hqp

end Fork

theorem linked_set {p : TaskPtr} {t : TaskStruct R} {limit interval : ℤ}
    (he : SetEffect k k' p limit interval) (ht : k.task p = some t) (hl : Linked k) :
    Linked k' := by
  have hkids := he.kids ht
  intro q u hu hroot
  rcases he.task_some ht hu with ⟨hin, hur, hul, hui⟩ | ⟨hout, hu0⟩
  · rcases Forest.reaches_iff_tail.mp hin with rfl | ⟨x, hx, hqx⟩
    · obtain ⟨v, hv, hvu⟩ := he.pid ht hu
      obtain rfl := Option.some.inj (ht.symm.trans hv)
      exact .inl (hvu.symm.trans hur.symm)
    · obtain ⟨v, hv, -⟩ := mem_kids.mp hqx
      have hx' : k'.task x = some (v.setLimits t.pid limit interval) := by
        rw [he.inside t ht x hx, hv, Option.map_some]
      exact .inr ⟨x, _, hkids ▸ hqx, hx', hur.symm, hul.symm, hui.symm⟩
  · rcases hl q u hu0 hroot with h | ⟨x, v, hqx, hv, hvu⟩
    · exact .inl h
    · have hx : k'.task x = some v :=
        (he.outside x fun hpx => hout (hpx.step hqx)).trans hv
      exact .inr ⟨x, v, hkids ▸ hqx, hx, hvu⟩

theorem linked_step {e : Event} (hs : Sound init s) (hl : Linked s.kernel)
    (hstep : (plainFamilies R init).step s e s') : Linked s'.kernel := by
  obtain ⟨hplain, hstep⟩ := hstep
  cases hstep with
  | @fork caller child t pid ht hc _ _ => exact linked_fork ht hc hl
  | @exit p _ _ => cases hplain
  | @setproclimit caller pid limit interval ret n k hcall h =>
    rcases sysSetproclimit_cases h with ⟨-, rfl, -⟩ | ⟨-, -, p, hp, he⟩
    · exact hl
    · obtain ⟨t, ht⟩ := Option.isSome_iff_exists.mp ((hs.wellFormed.run_as hcall).targets_live hp)
      exact linked_set he ht hl

theorem linked_reachable (hs : (plainFamilies R init).Reachable s) : Linked s.kernel :=
  hs.invariant (fun _ h => linked_boot h) fun _ _ _ hr hl hstep =>
    linked_step (sound_plain hr) hl hstep

theorem Linked.climb (hl : Linked k) (hk : k.WellFormed) {q : TaskPtr} {u : TaskStruct R}
    (hu : k.task q = some u) (hne : u.rootPid ≠ -1) :
    ∃ p t, k.task p = some t ∧ t.pid = u.rootPid ∧ t.rootPid = u.rootPid ∧
      Forest.Reaches (kids k.task) p q ∧
      ∀ a v, Forest.Reaches (kids k.task) p a → Forest.Reaches (kids k.task) a q →
        k.task a = some v → SameFamily v u := by
  obtain ⟨depth, hdepth⟩ := hk.exists_depth
  induction hd : depth q using Nat.strong_induction_on generalizing q u with
  | _ d ih =>
    rcases hl q u hu hne with hpid | ⟨x, w, hqx, hw, hwu⟩
    · refine ⟨q, u, hu, hpid, rfl, .refl q, fun a v hqa haq hv => ?_⟩
      obtain rfl := hk.acyclic.antisymm hqa haq
      obtain rfl := Option.some.inj (hu.symm.trans hv)
      exact ⟨rfl, rfl, rfl⟩
    · have hlt : depth x < d := hd ▸ hdepth x q hqx
      obtain ⟨p, t, ht, hpid, hroot, hpx, hpath⟩ := ih _ hlt hw (hwu.1 ▸ hne) rfl
      refine ⟨p, t, ht, hpid.trans hwu.1, hroot.trans hwu.1, hpx.step hqx, fun a v hpa haq hv => ?_⟩
      by_cases ha : a = q
      · obtain rfl := Option.some.inj (hu.symm.trans (ha ▸ hv))
        exact ⟨rfl, rfl, rfl⟩
      · have hax := haq.through_parent (fun p q c h h' => hk.oneParent p q c h h') hqx ha
        exact (hpath a v hpa hax hv).trans hwu

theorem family_shape (hs : (plainFamilies R init).Reachable s) {r : ℤ} (hne : r ≠ -1)
    (hr : ∃ q u, s.kernel.task q = some u ∧ u.rootPid = r) :
    ∃ p t, s.kernel.task p = some t ∧ t.pid = r ∧ t.rootPid = r ∧
      ∀ q u, s.kernel.task q = some u → u.rootPid = r →
        Forest.Reaches (kids s.kernel.task) p q ∧
        ∀ a v, Forest.Reaches (kids s.kernel.task) p a → Forest.Reaches (kids s.kernel.task) a q →
          s.kernel.task a = some v →
          v.rootPid = r ∧ v.timeLimit = u.timeLimit ∧ v.timeInterval = u.timeInterval := by
  have hk := (sound_plain hs).wellFormed
  have hl := linked_reachable hs
  obtain ⟨q, u, hu, rfl⟩ := hr
  obtain ⟨p, t, ht, hpid, hroot, -⟩ := hl.climb hk hu hne
  refine ⟨p, t, ht, hpid, hroot, fun q' u' hu' heq => ?_⟩
  obtain ⟨p', t', ht', hpid', -, hreach, hpath⟩ := hl.climb hk hu' (heq ▸ hne)
  obtain rfl := hk.pids p p' t t' ht ht' (hpid.trans (heq.symm.trans hpid'.symm))
  refine ⟨hreach, fun a v hpa haq hv => ?_⟩
  obtain ⟨h1, h2, h3⟩ := hpath a v hpa haq hv
  exact ⟨h1.trans heq, h2, h3⟩

def nested : System Unit :=
  perform (perform forked (.setproclimit 2 2 1 2)) (.setproclimit 1 3 0 5)

theorem nested_reachable : (plainFamilies Unit 1).Reachable nested := by
  have hb : (plainFamilies Unit 1).Reachable bootSystem := .init boot_system
  have h2 := hb.step (l := .fork 1 2 2) ⟨rfl, Step.fork rfl rfl (by decide) (by decide)⟩
  have h3 := h2.step (l := .fork 2 3 3) ⟨rfl, Step.fork rfl rfl (by decide) (by decide)⟩
  have h4 := h3.step (l := .fork 3 4 4) ⟨rfl, Step.fork rfl rfl (by decide) (by decide)⟩
  have hset := h4.step (l := .setproclimit 2 2 1 2) ⟨rfl, Step.setproclimit (n := 5) rfl rfl⟩
  exact hset.step (l := .setproclimit 1 3 0 5) ⟨rfl, Step.setproclimit (n := 5) rfl rfl⟩

theorem nested_shape :
    ∃ p t, nested.kernel.task p = some t ∧ t.pid = 3 ∧ t.rootPid = 3 ∧
      ∀ q u, nested.kernel.task q = some u → u.rootPid = 3 →
        Forest.Reaches (kids nested.kernel.task) p q ∧
        ∀ a v, Forest.Reaches (kids nested.kernel.task) p a →
          Forest.Reaches (kids nested.kernel.task) a q → nested.kernel.task a = some v →
          v.rootPid = 3 ∧ v.timeLimit = u.timeLimit ∧ v.timeInterval = u.timeInterval :=
  family_shape nested_reachable (by decide) ⟨4, _, rfl, rfl⟩

end Proclimit
