import Cs345.Proclimit.Paths

namespace Proclimit
variable {R : Type}

structure ThreadInfo (R : Type) where
  groupLeader : TaskPtr
  rest : R

def groupLeader (h : Heap (ThreadInfo R)) (p : TaskPtr) : Option TaskPtr :=
  (h p).map (·.rest.groupLeader)

def Leader (h : Heap (ThreadInfo R)) (p : TaskPtr) : Prop := groupLeader h p = some p

structure ThreadedState (R : Type) extends NumberedState (ThreadInfo R) where
  leader : ∀ p l, groupLeader task p = some l → Leader task l
  childLeader : ∀ p c, c ∈ kids task p → Leader task c
  processLeader : ∀ p ∈ processes, Leader task p

def Forks (h : Heap (ThreadInfo R)) (p c : TaskPtr) : Prop :=
  ∃ q, groupLeader h q = some p ∧ c ∈ kids h q

def Descends (h : Heap (ThreadInfo R)) : TaskPtr → TaskPtr → Prop := Relation.TransGen (Forks h)

def TaskStruct.InFamily (t : TaskStruct R) (root limit interval : ℤ) : Prop :=
  t.rootPid = root ∧ t.timeLimit = limit ∧ t.timeInterval = interval

def FamilySet (k : Kernel (ThreadInfo R)) (pid limit interval : ℤ) (p : TaskPtr) : Prop :=
  ∃ depth, ∀ n, depth ≤ n → ∃ k', sysSetproclimit n k pid limit interval = some (0, k') ∧
    ∀ q, Descends k.task p q → ∃ u, k'.task q = some u ∧ u.InFamily pid limit interval

namespace ThreadedState
variable (k : ThreadedState R) {p q : TaskPtr} {t : TaskStruct (ThreadInfo R)}
  {limit interval : ℤ}

theorem descendant_live (h : Descends k.task p q) : ∃ u, k.task q = some u := by
  have hkid : ∃ a, q ∈ kids k.task a := by
    cases h with
    | single h => exact ⟨_, h.choose_spec.2⟩
    | tail _ h => exact ⟨_, h.choose_spec.2⟩
  obtain ⟨a, ha⟩ := hkid
  exact Option.isSome_iff_exists.mp (k.wellFormed.children a q ha)

theorem set_listed (hp : p ∈ k.processes) (ht : k.task p = some t) (hle : limit ≤ interval) :
    ∃ depth, ∀ n, depth ≤ n → ∃ k', SetEffect k.toKernel k' p limit interval ∧
      sysSetproclimit n k.toKernel t.pid limit interval = some (0, k') := by
  have hpos := k.nonneg p t ht
  have htarget : Targets k.toKernel t.pid p := .inr ⟨by omega, hp, t, ht, rfl⟩
  obtain ⟨depth, hdepth⟩ := sysSetproclimit_total k.wellFormed t.pid limit interval
  refine ⟨depth, fun n hn => ?_⟩
  obtain ⟨ret, k', h⟩ := hdepth n hn
  rcases sysSetproclimit_cases h with ⟨-, -, hno⟩ | ⟨rfl, -, a, ha, he⟩
  · exact absurd ⟨hle, .inr ⟨by omega, p, hp, t, ht, rfl⟩⟩ hno
  · obtain rfl := k.wellFormed.targets_unique ha htarget
    exact ⟨k', he, h⟩

theorem reached_or_set (hp : p ∈ k.processes) (ht : k.task p = some t)
    (hle : limit ≤ interval) (h : FamilySet k.toKernel t.pid limit interval p)
    {u : TaskStruct (ThreadInfo R)} (hq : Descends k.task p q) (hu : k.task q = some u) :
    Forest.Reaches (kids k.task) p q ∨ u.InFamily t.pid limit interval := by
  obtain ⟨depth, hdepth⟩ := k.set_listed hp ht hle
  obtain ⟨depth', h⟩ := h
  obtain ⟨k', he, hset⟩ := hdepth (max depth depth') (Nat.le_max_left _ _)
  obtain ⟨k'', hset', hall⟩ := h (max depth depth') (Nat.le_max_right _ _)
  cases hset.symm.trans hset'
  by_cases hreach : Forest.Reaches (kids k.task) p q
  · exact .inl hreach
  · obtain ⟨w, hw, hfamily⟩ := hall q hq
    rw [he.outside q hreach, hu] at hw
    cases hw
    exact .inr hfamily

theorem family_set_of (hp : p ∈ k.processes) (ht : k.task p = some t) (hle : limit ≤ interval)
    (h : ∀ q u, Descends k.task p q → k.task q = some u →
      Forest.Reaches (kids k.task) p q ∨ u.InFamily t.pid limit interval) :
    FamilySet k.toKernel t.pid limit interval p := by
  obtain ⟨depth, hdepth⟩ := k.set_listed hp ht hle
  refine ⟨depth, fun n hn => ?_⟩
  obtain ⟨k', he, hset⟩ := hdepth n hn
  refine ⟨k', hset, fun q hq => ?_⟩
  obtain ⟨u, hu⟩ := k.descendant_live hq
  by_cases hreach : Forest.Reaches (kids k.task) p q
  · refine ⟨u.setLimits t.pid limit interval, ?_, rfl, rfl, rfl⟩
    rw [he.inside t ht q hreach, hu]
    rfl
  · exact ⟨u, (he.outside q hreach).trans hu, (h q u hq hu).resolve_left hreach⟩

theorem descends_reaches (hsingle : ∀ q l, groupLeader k.task q = some l → q = l)
    (h : Descends k.task p q) : Forest.Reaches (kids k.task) p q := by
  have hkid {a b : TaskPtr} (h : Forks k.task a b) : b ∈ kids k.task a := by
    obtain ⟨c, hc, hb⟩ := h
    exact hsingle c a hc ▸ hb
  induction h with
  | single h => exact (Forest.Reaches.refl p).step (hkid h)
  | tail _ h ih => exact ih.step (hkid h)

theorem family_set_single_threaded (hsingle : ∀ q l, groupLeader k.task q = some l → q = l)
    (hp : p ∈ k.processes) (ht : k.task p = some t) (hle : limit ≤ interval) :
    FamilySet k.toKernel t.pid limit interval p :=
  k.family_set_of hp ht hle fun _ _ hq _ => .inl (k.descends_reaches hsingle hq)

theorem family_set_iff (hp : p ∈ k.processes) (ht : k.task p = some t) (hle : limit ≤ interval) :
    FamilySet k.toKernel t.pid limit interval p ↔
      ∀ q u, Descends k.task p q → k.task q = some u →
        Forest.Reaches (kids k.task) p q ∨ u.InFamily t.pid limit interval :=
  ⟨fun h _ _ hq hu => k.reached_or_set hp ht hle h hq hu, k.family_set_of hp ht hle⟩

end ThreadedState

section Sample

def threadTask (pid : ℤ) (leader : TaskPtr) (root limit interval : ℤ) (children : List TaskPtr) :
    TaskStruct (ThreadInfo Unit) where
  pid := pid
  rootPid := root
  timeLimit := limit
  timeInterval := interval
  utime := 0
  stime := 0
  children := children
  rest := ⟨leader, ()⟩

def threadHeap : Heap (ThreadInfo Unit)
  | 1 => some (threadTask 1 1 (-1) (-1) (-1) [2])
  | 2 => some (threadTask 2 2 (-1) (-1) (-1) [])
  | 3 => some (threadTask 3 2 (-1) (-1) (-1) [4])
  | 4 => some (threadTask 4 4 4 3 4 [5])
  | 5 => some (threadTask 5 5 4 3 4 [])
  | 6 => some (threadTask 6 4 4 1 2 [7])
  | 7 => some (threadTask 7 7 4 1 2 [])
  | _ => none

def threadEdges : List (TaskPtr × TaskPtr) := [(1, 2), (3, 4), (4, 5), (6, 7)]

theorem threadHeap_cases {p : TaskPtr} {t : TaskStruct (ThreadInfo Unit)}
    (h : threadHeap p = some t) :
    p ∈ [1, 2, 3, 4, 5, 6, 7] ∧ t.pid = p ∧
      Leader threadHeap t.rest.groupLeader ∧ ∀ c ∈ t.children, (p, c) ∈ threadEdges := by
  simp only [threadHeap] at h
  split at h <;> cases h <;> exact ⟨by decide, rfl, rfl, by decide⟩

theorem threadHeap_kids {p c : TaskPtr} (h : c ∈ kids threadHeap p) : (p, c) ∈ threadEdges := by
  obtain ⟨t, ht, hc⟩ := mem_kids.mp h
  exact (threadHeap_cases ht).2.2.2 c hc

def forkedByThread : ThreadedState Unit where
  task := threadHeap
  processes := [1, 2, 4, 5, 7]
  current := 2
  wellFormed := by
    refine ⟨?_, rfl, by decide, fun p c h => ?_, ?_, fun p q c h h' => ?_, fun p q t u ht hu heq => ?_⟩
    · refine (List.finite_toSet [1, 2, 3, 4, 5, 6, 7]).subset fun p hp => ?_
      obtain ⟨t, ht⟩ := Option.isSome_iff_exists.mp hp
      exact (threadHeap_cases ht).1
    · have hlive : ∀ e ∈ threadEdges, (threadHeap e.2).isSome = true := by decide
      exact hlive (p, c) (threadHeap_kids h)
    · have hrank : ∀ e ∈ threadEdges, 7 - e.2 < 7 - e.1 := by decide
      exact Forest.not_transGen_self (fun p => 7 - p) fun p c h => hrank (p, c) (threadHeap_kids h)
    · have hone : ∀ e ∈ threadEdges, ∀ e' ∈ threadEdges, e.2 = e'.2 → e.1 = e'.1 := by decide
      exact hone (p, c) (threadHeap_kids h) (q, c) (threadHeap_kids h') rfl
    · have hp := (threadHeap_cases ht).2.1
      have hq := (threadHeap_cases hu).2.1
      exact Int.ofNat_inj.mp (hp.symm.trans (heq.trans hq))
  nonneg p t ht := by
    have hp := (threadHeap_cases ht).2.1
    omega
  leader p l h := by
    obtain ⟨t, ht, rfl⟩ := Option.map_eq_some_iff.mp h
    exact (threadHeap_cases ht).2.2.1
  childLeader p c h := by
    have hlead : ∀ e ∈ threadEdges, Leader threadHeap e.2 := by simp [threadEdges, Leader,
      groupLeader, threadHeap, threadTask]
    exact hlead (p, c) (threadHeap_kids h)
  processLeader := by simp [Leader, groupLeader, threadHeap, threadTask]

theorem thread_child_left_out : Descends forkedByThread.task 2 4 ∧
    ¬ FamilySet forkedByThread.toKernel 2 1 2 2 := by
  have hdesc : Descends forkedByThread.task 2 4 := .single ⟨3, rfl, List.mem_singleton_self 4⟩
  refine ⟨hdesc, fun h => ?_⟩
  rcases forkedByThread.reached_or_set (by simp [forkedByThread]) rfl (by decide) h hdesc rfl
    with hreach | hset
  · rcases Forest.reaches_iff_head.mp hreach with h | ⟨c, hc, -⟩
    · cases h
    · cases hc
  · exact absurd hset.1 (by decide)

theorem forks_four {p q : TaskPtr} (h : Forks threadHeap p q) (hp : p ∈ [4, 5, 7]) :
    q = 5 ∨ q = 7 := by
  obtain ⟨a, ha, hq⟩ := h
  have hlead : ∀ e ∈ threadEdges, ∀ l ∈ [4, 5, 7], groupLeader threadHeap e.1 = some l →
      e.2 = 5 ∨ e.2 = 7 := by decide
  exact hlead (a, q) (threadHeap_kids hq) p hp ha

theorem descends_four {q : TaskPtr} (h : Descends threadHeap 4 q) : q = 5 ∨ q = 7 := by
  induction h with
  | single h => exact forks_four h (by decide)
  | tail _ h ih => exact forks_four h (by rcases ih with rfl | rfl <;> decide)

theorem split_family : Descends forkedByThread.task 4 5 ∧ Descends forkedByThread.task 4 7 ∧
    FamilySet forkedByThread.toKernel 4 1 2 4 := by
  refine ⟨.single ⟨4, rfl, List.mem_singleton_self 5⟩, .single ⟨6, rfl, List.mem_singleton_self 7⟩,
    (forkedByThread.family_set_iff (p := 4) (by simp [forkedByThread]) rfl (by decide)).mpr
      fun q u hq hu => ?_⟩
  rcases descends_four hq with rfl | rfl
  · exact .inl ((Forest.Reaches.refl 4).step (List.mem_singleton_self 5))
  · cases hu
    exact .inr ⟨rfl, rfl, rfl⟩

end Sample
end Proclimit
