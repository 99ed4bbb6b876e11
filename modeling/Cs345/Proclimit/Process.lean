import Cs345.Machine
import Cs345.Proclimit.SetProclimit

namespace Proclimit
variable {R : Type}

-- fork, exit and re-parenting are kernel code outside these sources: this is their assumed effect
def forkTask (k : Kernel R) (caller child : TaskPtr) (t : TaskStruct R) (pid : ℤ) : Kernel R :=
  { k with
    task := fun q =>
      if q = child then some { t with pid := pid, utime := 0, stime := 0, children := [] }
      else if q = caller then some { t with children := t.children ++ [child] }
      else k.task q
    processes := k.processes ++ [child] }

def exitTask (k : Kernel R) (init p : TaskPtr) : Kernel R where
  task := fun q =>
    if q = p then none
    else (k.task q).map fun t => { t with
      children := t.children.filter (· ≠ p) ++ if q = init then kids k.task p else [] }
  processes := k.processes.filter (· ≠ p)
  current := if k.current = p then init else k.current

inductive Event where
  | fork (caller child : TaskPtr) (pid : ℤ)
  | exit (p : TaskPtr)
  | setproclimit (caller : TaskPtr) (pid limit interval : ℤ)

def Event.isExit : Event → Bool
  | .exit _ => true
  | _ => false

structure System (R : Type) where
  kernel : Kernel R
  used : List ℤ

inductive Step (init : TaskPtr) : System R → Event → System R → Prop
  | fork {s : System R} {caller child : TaskPtr} {t : TaskStruct R} {pid : ℤ} :
      s.kernel.task caller = some t → s.kernel.task child = none → 0 < pid → pid ∉ s.used →
      Step init s (.fork caller child pid) ⟨forkTask s.kernel caller child t pid, pid :: s.used⟩
  | exit {s : System R} {p : TaskPtr} :
      (s.kernel.task p).isSome = true → ¬ Forest.Reaches (kids s.kernel.task) p init →
      Step init s (.exit p) ⟨exitTask s.kernel init p, s.used⟩
  | setproclimit {s : System R} {caller : TaskPtr} {pid limit interval ret : ℤ} {n : ℕ}
      {k : Kernel R} :
      (s.kernel.task caller).isSome = true →
      sysSetproclimit n { s.kernel with current := caller } pid limit interval = some (ret, k) →
      Step init s (.setproclimit caller pid limit interval) ⟨k, s.used⟩

structure Boot (init : TaskPtr) (s : System R) : Prop where
  wellFormed : s.kernel.WellFormed
  init : (s.kernel.task init).isSome = true
  noFamily : ∀ p t, s.kernel.task p = some t →
    t.rootPid = -1 ∧ t.timeLimit = -1 ∧ t.timeInterval = -1
  pids : ∀ p t, s.kernel.task p = some t → 0 ≤ t.pid ∧ t.pid ∈ s.used

def families (R : Type) (init : TaskPtr) : Machine (System R) Event where
  init := Boot init
  step := Step init

def plainFamilies (R : Type) (init : TaskPtr) : Machine (System R) Event where
  init := Boot init
  step s e t := e.isExit = false ∧ Step init s e t

structure Sound (init : TaskPtr) (s : System R) : Prop where
  wellFormed : s.kernel.WellFormed
  init : (s.kernel.task init).isSome = true
  pids : ∀ p t, s.kernel.task p = some t → 0 ≤ t.pid ∧ t.pid ∈ s.used

variable {init : TaskPtr} {s s' : System R} {k k' : Kernel R}

def SameFamily (t u : TaskStruct R) : Prop :=
  t.rootPid = u.rootPid ∧ t.timeLimit = u.timeLimit ∧ t.timeInterval = u.timeInterval

section Fork
variable {caller child : TaskPtr} {t : TaskStruct R} {pid : ℤ}

theorem kids_fork (ht : k.task caller = some t) (q : TaskPtr) :
    kids (forkTask k caller child t pid).task q =
      if q = child then [] else if q = caller then kids k.task caller ++ [child]
      else kids k.task q := by
  simp only [kids, forkTask]
  split_ifs <;> simp [ht]

theorem fork_live (q : TaskPtr) (hne : q ≠ child) (ht : k.task caller = some t) :
    ((forkTask k caller child t pid).task q).isSome = (k.task q).isSome := by
  simp only [forkTask, if_neg hne]
  split_ifs with hq
  · simp [hq, ht]
  · rfl

theorem fork_task {q : TaskPtr} {u : TaskStruct R} (ht : k.task caller = some t)
    (hu : (forkTask k caller child t pid).task q = some u) :
    (q = child ∧ u.pid = pid ∧ SameFamily t u) ∨
      (q ≠ child ∧ ∃ v, k.task q = some v ∧ v.pid = u.pid ∧ SameFamily v u) := by
  simp only [forkTask] at hu
  split_ifs at hu with h1 h2
  · cases hu; exact .inl ⟨h1, rfl, rfl, rfl, rfl⟩
  · cases hu; exact .inr ⟨h1, t, h2 ▸ ht, rfl, rfl, rfl, rfl⟩
  · exact .inr ⟨h1, u, hu, rfl, rfl, rfl, rfl⟩

theorem mem_kids_fork (hk : k.WellFormed) (ht : k.task caller = some t) (hc : k.task child = none)
    {p c : TaskPtr} (h : c ∈ kids (forkTask k caller child t pid).task p) :
    (p = caller ∧ c = child) ∨ (c ∈ kids k.task p ∧ c ≠ child) := by
  have hold {q : TaskPtr} (hq : c ∈ kids k.task q) : c ≠ child := by
    rintro rfl
    simpa [hc] using hk.children q c hq
  rw [kids_fork ht] at h
  split_ifs at h with h1 h2
  · cases h
  · rcases List.mem_append.mp h with h | h
    · exact .inr ⟨h2 ▸ h, hold h⟩
    · exact .inl ⟨h2, List.mem_singleton.mp h⟩
  · exact .inr ⟨h, hold h⟩

theorem fork_acyclic (hk : k.WellFormed) (ht : k.task caller = some t)
    (hc : k.task child = none) : Forest.Acyclic (kids (forkTask k caller child t pid).task) := by
  obtain ⟨rank, hrank⟩ := hk.exists_rank
  refine Forest.not_transGen_self (fun q => if q = child then 0 else rank q + 1) ?_
  intro p c h
  rcases mem_kids_fork hk ht hc h with ⟨rfl, rfl⟩ | ⟨hold, hne⟩
  · have hpc : p ≠ c := by
      rintro rfl
      rw [hc] at ht
      cases ht
    simp [hpc]
  · have hp : p ≠ child := by
      rintro rfl
      obtain ⟨u, hu, -⟩ := mem_kids.mp hold
      rw [hc] at hu
      cases hu
    simpa [hne, hp] using hrank p c hold

theorem fork_wellFormed (hk : k.WellFormed) (ht : k.task caller = some t)
    (hc : k.task child = none) (hp : ∀ p u, k.task p = some u → u.pid ≠ pid) :
    (forkTask k caller child t pid).WellFormed := by
  have hlive {q : TaskPtr} (hq : (k.task q).isSome = true) :
      ((forkTask k caller child t pid).task q).isSome = true := by
    have hne : q ≠ child := by
      rintro rfl
      simp [hc] at hq
    exact (fork_live q hne ht).trans hq
  have hchild : ((forkTask k caller child t pid).task child).isSome = true := by simp [forkTask]
  constructor
  case finite =>
    refine (hk.finite.union (Set.finite_singleton child)).subset fun q hq => ?_
    by_cases hqc : q = child
    · exact .inr hqc
    · exact .inl ((fork_live q hqc ht).symm.trans hq)
  case current => exact hlive hk.current
  case processes =>
    intro p hp'
    rcases List.mem_append.mp hp' with h | h
    · exact hlive (hk.processes p h)
    · exact List.mem_singleton.mp h ▸ hchild
  case children =>
    intro p c h
    rcases mem_kids_fork hk ht hc h with ⟨-, rfl⟩ | ⟨h, -⟩
    · exact hchild
    · exact hlive (hk.children p c h)
  case acyclic => exact fork_acyclic hk ht hc
  case oneParent =>
    intro p q c h h'
    rcases mem_kids_fork hk ht hc h with ⟨rfl, rfl⟩ | ⟨h, hne⟩ <;>
      rcases mem_kids_fork hk ht hc h' with ⟨rfl, h1⟩ | ⟨h', hne'⟩
    · rfl
    · exact absurd rfl hne'
    · exact absurd h1 hne
    · exact hk.oneParent p q c h h'
  case pids =>
    intro p q u v hu hv heq
    rcases fork_task ht hu with ⟨rfl, hpu, -⟩ | ⟨-, w, hw, hwu, -⟩ <;>
      rcases fork_task ht hv with ⟨rfl, hpv, -⟩ | ⟨-, x, hx, hxv, -⟩
    · rfl
    · exact absurd (hxv.trans (heq.symm.trans hpu)) (hp q x hx)
    · exact absurd (hwu.trans (heq.trans hpv)) (hp p w hw)
    · exact hk.pids p q w x hw hx (hwu.trans (heq.trans hxv.symm))

end Fork

section Exit
variable {p : TaskPtr}

theorem exit_task {q : TaskPtr} {u : TaskStruct R} (h : (exitTask k init p).task q = some u) :
    q ≠ p ∧ ∃ t, k.task q = some t ∧ u = { t with
      children := t.children.filter (· ≠ p) ++ if q = init then kids k.task p else [] } := by
  simp only [exitTask] at h
  split_ifs at h with hq
  · obtain ⟨t, ht, rfl⟩ := Option.map_eq_some_iff.mp h
    exact ⟨hq, t, ht, by simp_all⟩
  · obtain ⟨t, ht, rfl⟩ := Option.map_eq_some_iff.mp h
    exact ⟨hq, t, ht, by simp_all⟩

theorem exit_live {q : TaskPtr} (hq : q ≠ p) :
    ((exitTask k init p).task q).isSome = (k.task q).isSome := by
  simp [exitTask, hq]

theorem mem_kids_exit {q c : TaskPtr} (h : c ∈ kids (exitTask k init p).task q) :
    q ≠ p ∧ ((c ∈ kids k.task q ∧ c ≠ p) ∨ (q = init ∧ c ∈ kids k.task p)) := by
  obtain ⟨u, hu, hc⟩ := mem_kids.mp h
  obtain ⟨hq, t, ht, rfl⟩ := exit_task hu
  refine ⟨hq, ?_⟩
  rcases List.mem_append.mp hc with hc | hc
  · have := List.mem_filter.mp hc
    exact .inl ⟨mem_kids.mpr ⟨t, ht, this.1⟩, by simpa using this.2⟩
  · split_ifs at hc with hi
    · exact .inr ⟨hi, hc⟩
    · cases hc

theorem exit_acyclic (hk : k.WellFormed) (hno : ¬ Forest.Reaches (kids k.task) p init) :
    Forest.Acyclic (kids (exitTask k init p).task) := by
  obtain ⟨rank, hrank⟩ := hk.exists_rank
  classical
  refine Forest.not_transGen_self (fun q =>
    if Forest.Reaches (kids k.task) q init then rank q + rank p + 1 else rank q) ?_
  intro q c h
  obtain ⟨-, ⟨hold, -⟩ | ⟨rfl, hold⟩⟩ := mem_kids_exit h
  · have hlt := hrank q c hold
    by_cases hc : Forest.Reaches (kids k.task) c init
    · have hq : Forest.Reaches (kids k.task) q init := Relation.ReflTransGen.head hold hc
      simp only [hc, hq, if_true]
      omega
    · simp only [hc, if_false]
      split_ifs <;> omega
  · have hlt := hrank p c hold
    have hc : ¬ Forest.Reaches (kids k.task) c q := fun hc =>
      hno (Relation.ReflTransGen.head hold hc)
    simp only [hc, if_false, Forest.Reaches.refl, if_true]
    omega

theorem exit_wellFormed (hk : k.WellFormed) (hinit : (k.task init).isSome = true)
    (hp : (k.task p).isSome = true) (hno : ¬ Forest.Reaches (kids k.task) p init) :
    (exitTask k init p).WellFormed := by
  have hne : init ≠ p := fun h => hno (h ▸ .refl _)
  have hself {c : TaskPtr} (h : c ∈ kids k.task p) : c ≠ p := by
    rintro rfl
    exact hk.acyclic c (.single h)
  constructor
  case finite =>
    refine hk.finite.subset fun q hq => ?_
    by_cases hqp : q = p
    · exact hqp ▸ hp
    · exact (exit_live hqp).symm.trans hq
  case current =>
    by_cases hc : k.current = p
    · have hcur : (exitTask k init p).current = init := by simp [exitTask, hc]
      rw [hcur]
      exact (exit_live hne).trans hinit
    · have hcur : (exitTask k init p).current = k.current := by simp [exitTask, hc]
      rw [hcur]
      exact (exit_live hc).trans hk.current
  case processes =>
    intro q hq
    have hmem := List.mem_filter.mp hq
    exact (exit_live (by simpa using hmem.2)).trans (hk.processes q hmem.1)
  case children =>
    intro q c h
    obtain ⟨-, ⟨h, hcp⟩ | ⟨-, h⟩⟩ := mem_kids_exit h
    · exact (exit_live hcp).trans (hk.children q c h)
    · exact (exit_live (hself h)).trans (hk.children p c h)
  case acyclic => exact exit_acyclic hk hno
  case oneParent =>
    intro q r c h h'
    obtain ⟨hq, ⟨hc, -⟩ | ⟨hqi, hc⟩⟩ := mem_kids_exit h <;>
      obtain ⟨hr, ⟨hc', -⟩ | ⟨hri, hc'⟩⟩ := mem_kids_exit h'
    · exact hk.oneParent q r c hc hc'
    · exact absurd (hk.oneParent q p c hc hc') hq
    · exact absurd (hk.oneParent r p c hc' hc) hr
    · exact hqi.trans hri.symm
  case pids =>
    intro q r u v hu hv heq
    obtain ⟨-, t, ht, rfl⟩ := exit_task hu
    obtain ⟨-, w, hw, rfl⟩ := exit_task hv
    exact hk.pids q r t w ht hw heq

end Exit

section Set
variable {p : TaskPtr} {limit interval : ℤ}

theorem SetEffect.task_cases (he : SetEffect k k' p limit interval) {t : TaskStruct R}
    (ht : k.task p = some t) (q : TaskPtr) :
    (Forest.Reaches (kids k.task) p q ∧
      k'.task q = (k.task q).map (·.setLimits t.pid limit interval)) ∨
    (¬ Forest.Reaches (kids k.task) p q ∧ k'.task q = k.task q) := by
  by_cases hq : Forest.Reaches (kids k.task) p q
  · exact .inl ⟨hq, he.inside t ht q hq⟩
  · exact .inr ⟨hq, he.outside q hq⟩

theorem SetEffect.live (he : SetEffect k k' p limit interval) {t : TaskStruct R}
    (ht : k.task p = some t) (q : TaskPtr) : (k'.task q).isSome = (k.task q).isSome := by
  rcases he.task_cases ht q with ⟨-, h⟩ | ⟨-, h⟩ <;> simp [h]

theorem SetEffect.pid (he : SetEffect k k' p limit interval) {t u : TaskStruct R}
    (ht : k.task p = some t) {q : TaskPtr} (hu : k'.task q = some u) :
    ∃ v, k.task q = some v ∧ v.pid = u.pid := by
  rcases he.task_cases ht q with ⟨-, h⟩ | ⟨-, h⟩
  · rw [h] at hu
    obtain ⟨v, hv, rfl⟩ := Option.map_eq_some_iff.mp hu
    exact ⟨v, hv, rfl⟩
  · exact ⟨u, h ▸ hu, rfl⟩

theorem SetEffect.kids (he : SetEffect k k' p limit interval) {t : TaskStruct R}
    (ht : k.task p = some t) : kids k'.task = kids k.task := by
  funext q
  rcases he.task_cases ht q with ⟨-, h⟩ | ⟨-, h⟩
  · simp only [Proclimit.kids, h, Option.map_map]
    rfl
  · simp only [Proclimit.kids, h]

theorem SetEffect.task_some (he : SetEffect k k' p limit interval) {t : TaskStruct R}
    (ht : k.task p = some t) {q : TaskPtr} {u : TaskStruct R} (hu : k'.task q = some u) :
    (Forest.Reaches (Proclimit.kids k.task) p q ∧ u.rootPid = t.pid ∧ u.timeLimit = limit ∧
        u.timeInterval = interval) ∨
      (¬ Forest.Reaches (Proclimit.kids k.task) p q ∧ k.task q = some u) := by
  rcases he.task_cases ht q with ⟨hq, h⟩ | ⟨hq, h⟩
  · rw [h] at hu
    obtain ⟨v, -, rfl⟩ := Option.map_eq_some_iff.mp hu
    exact .inl ⟨hq, rfl, rfl, rfl⟩
  · exact .inr ⟨hq, h ▸ hu⟩

theorem SetEffect.wellFormed (he : SetEffect k k' p limit interval) {t : TaskStruct R}
    (ht : k.task p = some t) (hk : k.WellFormed) : k'.WellFormed := by
  have hkids := he.kids ht
  refine ⟨?_, ?_, ?_, ?_, ?_, ?_, ?_⟩
  · exact hk.finite.subset fun q hq => (he.live ht q).symm.trans hq
  · rw [he.current]
    exact (he.live ht _).trans hk.current
  · intro q hq
    exact (he.live ht q).trans (hk.processes q (he.processes ▸ hq))
  · intro q c hc
    exact (he.live ht c).trans (hk.children q c (hkids ▸ hc))
  · rw [hkids]
    exact hk.acyclic
  · rw [hkids]
    exact hk.oneParent
  · intro q r u v hu hv heq
    obtain ⟨x, hx, hxu⟩ := he.pid ht hu
    obtain ⟨y, hy, hyv⟩ := he.pid ht hv
    exact hk.pids q r x y hx hy (hxu.trans (heq.trans hyv.symm))

end Set

theorem Kernel.WellFormed.run_as (hk : k.WellFormed) {caller : TaskPtr}
    (hc : (k.task caller).isSome = true) : ({ k with current := caller } : Kernel R).WellFormed :=
  ⟨hk.finite, hc, hk.processes, hk.children, hk.acyclic, hk.oneParent, hk.pids⟩

theorem sound_boot (h : Boot init s) : Sound init s := ⟨h.wellFormed, h.init, h.pids⟩

theorem sound_step {e : Event} (hs : Sound init s) (hstep : Step init s e s') : Sound init s' := by
  obtain ⟨hk, hinit, hpids⟩ := hs
  cases hstep with
  | @fork caller child t pid ht hc hpos hfresh =>
    have hnew : ∀ p u, s.kernel.task p = some u → u.pid ≠ pid :=
      fun p u hu h => hfresh (h ▸ (hpids p u hu).2)
    refine ⟨fork_wellFormed hk ht hc hnew, ?_, fun p u hu => ?_⟩
    · have hne : init ≠ child := by
        rintro rfl
        simp [hc] at hinit
      exact (fork_live init hne ht).trans hinit
    · rcases fork_task ht hu with ⟨-, hp, -⟩ | ⟨-, v, hv, hp, -⟩
      · exact ⟨by omega, by simp [hp]⟩
      · have := hpids p v hv
        rw [hp] at this
        exact ⟨this.1, List.mem_cons_of_mem _ this.2⟩
  | @exit p hp hno =>
    have hne : init ≠ p := fun h => hno (h ▸ .refl _)
    refine ⟨exit_wellFormed hk hinit hp hno, (exit_live hne).trans hinit, ?_⟩
    intro q u hu
    obtain ⟨-, t, ht, rfl⟩ := exit_task hu
    exact hpids q t ht
  | @setproclimit caller pid limit interval ret n k hc h =>
    rcases sysSetproclimit_cases h with ⟨-, rfl, -⟩ | ⟨-, -, p, hp, he⟩
    · exact ⟨hk.run_as hc, hinit, hpids⟩
    · obtain ⟨t, ht⟩ := Option.isSome_iff_exists.mp ((hk.run_as hc).targets_live hp)
      refine ⟨he.wellFormed ht (hk.run_as hc), (he.live ht init).trans hinit, fun q u hu => ?_⟩
      obtain ⟨v, hv, hvu⟩ := he.pid ht hu
      exact hvu ▸ hpids q v hv

theorem sound_reachable (hs : (families R init).Reachable s) : Sound init s :=
  hs.invariant (fun _ h => sound_boot h) (fun _ _ _ _ hs h => sound_step hs h)

theorem sound_plain (hs : (plainFamilies R init).Reachable s) : Sound init s :=
  hs.invariant (fun _ h => sound_boot h) (fun _ _ _ _ hs h => sound_step hs h.2)

section Sample

def sampleTask (pid root limit interval : ℤ) (children : List TaskPtr) : TaskStruct Unit where
  pid := pid
  rootPid := root
  timeLimit := limit
  timeInterval := interval
  utime := 0
  stime := 0
  children := children
  rest := ()

def bootSystem : System Unit where
  kernel.task
    | 0 => some (sampleTask 0 (-1) (-1) (-1) [1])
    | 1 => some (sampleTask 1 (-1) (-1) (-1) [])
    | _ => none
  kernel.processes := [1]
  kernel.current := 1
  used := [0, 1]

theorem boot_task {p : TaskPtr} {t : TaskStruct Unit} (h : bootSystem.kernel.task p = some t) :
    (p = 0 ∧ t = sampleTask 0 (-1) (-1) (-1) [1]) ∨ (p = 1 ∧ t = sampleTask 1 (-1) (-1) (-1) []) := by
  simp only [bootSystem] at h
  split at h
  · cases h; exact .inl ⟨rfl, rfl⟩
  · cases h; exact .inr ⟨rfl, rfl⟩
  · cases h

theorem boot_system : Boot 1 bootSystem := by
  have hkids {p c : TaskPtr} (h : c ∈ kids bootSystem.kernel.task p) : p = 0 ∧ c = 1 := by
    obtain ⟨t, ht, hc⟩ := mem_kids.mp h
    rcases boot_task ht with ⟨rfl, rfl⟩ | ⟨rfl, rfl⟩ <;> simp_all [sampleTask]
  refine ⟨⟨?_, rfl, by simp [bootSystem], ?_, ?_, ?_, ?_⟩, rfl, ?_, ?_⟩
  · refine (Set.toFinite {0, 1}).subset fun p hp => ?_
    obtain ⟨t, ht⟩ := Option.isSome_iff_exists.mp hp
    rcases boot_task ht with ⟨rfl, -⟩ | ⟨rfl, -⟩ <;> simp
  · intro p c h
    obtain ⟨-, rfl⟩ := hkids h
    rfl
  · refine Forest.not_transGen_self (fun p => 1 - p) fun p c h => ?_
    obtain ⟨rfl, rfl⟩ := hkids h
    decide
  · intro p q c h h'
    exact (hkids h).1.trans (hkids h').1.symm
  · intro p q t u ht hu heq
    rcases boot_task ht with ⟨rfl, rfl⟩ | ⟨rfl, rfl⟩ <;>
      rcases boot_task hu with ⟨rfl, rfl⟩ | ⟨rfl, rfl⟩ <;> simp_all [sampleTask]
  · intro p t ht
    rcases boot_task ht with ⟨-, rfl⟩ | ⟨-, rfl⟩ <;> exact ⟨rfl, rfl, rfl⟩
  · intro p t ht
    rcases boot_task ht with ⟨-, rfl⟩ | ⟨-, rfl⟩ <;> simp [sampleTask, bootSystem]

def perform (s : System Unit) : Event → System Unit
  | .fork caller child pid =>
    match s.kernel.task caller with
    | some t => ⟨forkTask s.kernel caller child t pid, pid :: s.used⟩
    | none => s
  | .exit p => ⟨exitTask s.kernel 1 p, s.used⟩
  | .setproclimit caller pid limit interval =>
    match sysSetproclimit 5 { s.kernel with current := caller } pid limit interval with
    | some (_, k) => ⟨k, s.used⟩
    | none => s

def performAll (s : System Unit) : List Event → List (Event × System Unit)
  | [] => []
  | e :: es => (e, perform s e) :: performAll (perform s e) es

def forks : List Event := [.fork 1 2 2, .fork 2 3 3, .fork 3 4 4]

def forked : System Unit := forks.foldl perform bootSystem

end Sample
end Proclimit
