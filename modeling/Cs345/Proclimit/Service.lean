import Cs345.Proclimit.Calls
import Cs345.Proclimit.Figures

namespace Proclimit
variable {R U : Type} {init : TaskPtr} {s s' s0 : System R} {k : Kernel R}

section Time
variable {p q : TaskPtr} {utime stime : BitVec 32} {t t' : TaskStruct R}

def Kernel.spend (k : Kernel R) (p : TaskPtr) (utime stime : BitVec 32) : Kernel R :=
  { k with
    task := fun q =>
      if q = p then (k.task q).map fun t => { t with utime := utime, stime := stime }
      else k.task q }

theorem spend_task (h : (k.spend p utime stime).task q = some t') :
    ∃ t, k.task q = some t ∧ t'.pid = t.pid ∧ t'.limits = t.limits := by
  simp only [Kernel.spend] at h
  split_ifs at h
  · obtain ⟨t, ht, rfl⟩ := Option.map_eq_some_iff.mp h
    exact ⟨t, ht, rfl, rfl⟩
  · exact ⟨t', h, rfl, rfl⟩

theorem spend_live : ((k.spend p utime stime).task q).isSome = (k.task q).isSome := by
  simp only [Kernel.spend]
  split_ifs
  · simp
  · rfl

theorem spend_pid (p : TaskPtr) (utime stime : BitVec 32) (h : k.task q = some t) :
    ∃ t', (k.spend p utime stime).task q = some t' ∧ t'.pid = t.pid := by
  simp only [Kernel.spend, h]
  split_ifs
  · exact ⟨_, rfl, rfl⟩
  · exact ⟨t, rfl, rfl⟩

theorem spend_kids : kids (k.spend p utime stime).task = kids k.task := by
  funext q
  simp only [kids, Kernel.spend]
  split_ifs
  · rw [Option.map_map]
    rfl
  · rfl

theorem spend_wellFormed (hk : k.WellFormed) : (k.spend p utime stime).WellFormed := by
  refine ⟨?_, spend_live.trans hk.current, fun q hq => spend_live.trans (hk.processes q hq),
    fun q c hc => spend_live.trans (hk.children q c (spend_kids ▸ hc)), ?_, ?_, ?_⟩
  · exact hk.finite.subset fun q hq => spend_live.symm.trans hq
  · rw [spend_kids]
    exact hk.acyclic
  · rw [spend_kids]
    exact hk.oneParent
  · intro q r t u ht hu heq
    obtain ⟨t0, ht0, hpid, -⟩ := spend_task ht
    obtain ⟨u0, hu0, hpid', -⟩ := spend_task hu
    exact hk.pids q r t0 u0 ht0 hu0 (hpid.symm.trans (heq.trans hpid'))

end Time

section Machine

inductive Activity where
  | call (e : Event)
  | spend (p : TaskPtr) (utime stime : BitVec 32)

inductive ServiceStep (init : TaskPtr) : System R → Activity → System R → Prop
  | call {s s' : System R} {e : Event} : (plainFamilies R init).step s e s' →
      ServiceStep init s (.call e) s'
  | spend {s : System R} {p : TaskPtr} {utime stime : BitVec 32} :
      ServiceStep init s (.spend p utime stime) { s with kernel := s.kernel.spend p utime stime }

def service (R : Type) (init : TaskPtr) : Machine (System R) Activity where
  init := Boot init
  step := ServiceStep init

def Activity.succeeded (s : System R) : Activity → Option Call
  | .call e => Proclimit.succeeded s e
  | .spend _ _ _ => none

def served (s0 : System R) (tr : List (Activity × System R)) : List Call :=
  (Machine.trace Activity.succeeded s0 tr).reverse

end Machine

section Law

structure Rooted (init : TaskPtr) (s : System R) (cs : List Call) : Prop
    extends Lawful init s cs where
  rooted : ∀ c ∈ cs, ∃ t, s.kernel.task c.target = some t ∧ t.pid = c.rootPid

variable {cs : List Call}

theorem pid_kept {e : Event} (hs : Sound init s) (hstep : (plainFamilies R init).step s e s')
    {q : TaskPtr} {t : TaskStruct R} (ht : s.kernel.task q = some t) :
    ∃ t', s'.kernel.task q = some t' ∧ t'.pid = t.pid := by
  obtain ⟨hplain, hstep⟩ := hstep
  cases hstep with
  | @fork caller child u pid hu hc _ _ =>
    have hq : q ≠ child := by
      rintro rfl
      rw [hc] at ht
      cases ht
    simp only [forkTask, if_neg hq]
    split_ifs with hcaller
    · obtain rfl : u = t := Option.some.inj (hu.symm.trans (hcaller ▸ ht))
      exact ⟨_, rfl, rfl⟩
    · exact ⟨t, ht, rfl⟩
  | exit _ _ => cases hplain
  | setproclimit hcaller hset =>
    rcases sysSetproclimit_cases hset with ⟨-, rfl, -⟩ | ⟨-, -, p, hp, he⟩
    · exact ⟨t, ht, rfl⟩
    · obtain ⟨u, hu⟩ := Option.isSome_iff_exists.mp ((hs.wellFormed.run_as hcaller).targets_live hp)
      rcases he.task_cases hu q with ⟨-, heq⟩ | ⟨-, heq⟩
      · rw [heq]
        exact ⟨_, congrArg _ ht, rfl⟩
      · exact ⟨t, heq.trans ht, rfl⟩

theorem succeeded_rooted {e : Event} {c : Call} (h : succeeded s e = some c) :
    ∃ t, s.kernel.task c.target = some t ∧ t.pid = c.rootPid := by
  cases e with
  | setproclimit caller pid limit interval =>
    simp only [succeeded] at h
    split_ifs at h
    obtain ⟨p, -, hp⟩ := Option.bind_eq_some_iff.mp h
    obtain ⟨t, ht, rfl⟩ := Option.map_eq_some_iff.mp hp
    exact ⟨t, ht, rfl⟩
  | fork caller child pid => cases h
  | exit p => cases h

theorem rooted_call {e : Event} (h : Rooted init s cs) (hstep : (plainFamilies R init).step s e s') :
    Rooted init s' ((succeeded s e).toList ++ cs) := by
  refine ⟨lawful_step h.toLawful hstep, fun c hc => ?_⟩
  obtain ⟨t, ht, hpid⟩ : ∃ t, s.kernel.task c.target = some t ∧ t.pid = c.rootPid := by
    rcases List.mem_append.mp hc with hc | hc
    · exact succeeded_rooted (Option.mem_toList.mp hc)
    · exact h.rooted c hc
  obtain ⟨t', ht', hsame⟩ := pid_kept h.sound hstep ht
  exact ⟨t', ht', hsame.trans hpid⟩

theorem rooted_spend (h : Rooted init s cs) (p : TaskPtr) (utime stime : BitVec 32) :
    Rooted init { s with kernel := s.kernel.spend p utime stime } cs where
  sound :=
    { wellFormed := spend_wellFormed h.sound.wellFormed
      init := spend_live.trans h.sound.init
      pids := fun q t ht => by
        obtain ⟨t0, ht0, hpid, -⟩ := spend_task ht
        exact hpid ▸ h.sound.pids q t0 ht0 }
  live c hc := spend_live.trans (h.live c hc)
  decided q t ht := by
    obtain ⟨t0, ht0, -, hlimits⟩ := spend_task ht
    rw [spend_kids, hlimits]
    exact h.decided q t0 ht0
  rooted c hc := by
    obtain ⟨t, ht, hpid⟩ := h.rooted c hc
    obtain ⟨t', ht', hsame⟩ := spend_pid p utime stime ht
    exact ⟨t', ht', hsame.trans hpid⟩

theorem rooted_boot (h : Boot init s) : Rooted init s [] :=
  ⟨lawful_boot h, List.forall_mem_nil _⟩

theorem rooted_step {a : Activity} (h : Rooted init s cs) (hstep : (service R init).step s a s') :
    Rooted init s' ((a.succeeded s).toList ++ cs) := by
  cases hstep with
  | call hstep => exact rooted_call h hstep
  | spend => exact rooted_spend h _ _ _

theorem rooted_run {tr : List (Activity × System R)} (hboot : Boot init s0)
    (hrun : (service R init).Run s0 tr) : Rooted init (Machine.last s0 tr) (served s0 tr) := by
  have hlaw := hrun.past (fun _ _ _ _ h hstep => rooted_step h hstep) (rooted_boot hboot)
  rwa [List.append_nil] at hlaw

end Law

section Governing
variable {ks : TaskPtr → List TaskPtr} {q : TaskPtr} {cs : List Call} {c : Call}

open Classical in
noncomputable def governing (ks : TaskPtr → List TaskPtr) (cs : List Call) (q : TaskPtr) :
    Option Call :=
  cs.find? fun c => Forest.Reaches ks c.target q

def limitsOf : Option Call → ℤ × ℤ × ℤ
  | none => (-1, -1, -1)
  | some c => c.limits

theorem decided_iff {limits : ℤ × ℤ × ℤ} :
    Decided ks q limits cs ↔ limits = limitsOf (governing ks cs q) := by
  induction cs with
  | nil => rfl
  | cons c cs ih =>
    rw [Decided, ih]
    by_cases hc : Forest.Reaches ks c.target q
    · simp [governing, hc, limitsOf]
    · simp [governing, hc]

theorem governing_mem (h : governing ks cs q = some c) : c ∈ cs := List.mem_of_find?_eq_some h

noncomputable def Kernel.governed (k : Kernel R) (cs : List Call) (c : Call) :
    List (TaskStruct R) :=
  (k.processes.filter fun q => (governing (kids k.task) cs q).any (·.target = c.target)).filterMap
    k.task

theorem Rooted.family_iff (h : Rooted init s cs) (hc : c ∈ cs) {t : TaskStruct R}
    (ht : s.kernel.task q = some t) :
    t.rootPid = c.rootPid ↔
      (governing (kids s.kernel.task) cs q).any (·.target = c.target) = true := by
  have hlimits := decided_iff.mp (h.decided q t ht)
  obtain ⟨u, hu, hpid⟩ := h.rooted c hc
  cases hgov : governing (kids s.kernel.task) cs q with
  | none =>
    rw [hgov] at hlimits
    have hroot : t.rootPid = -1 := congrArg Prod.fst hlimits
    have hpos := (h.sound.pids _ u hu).1
    simp
    omega
  | some d =>
    rw [hgov] at hlimits
    have hroot : t.rootPid = d.rootPid := congrArg Prod.fst hlimits
    obtain ⟨v, hv, hpid'⟩ := h.rooted d (governing_mem hgov)
    rw [hroot, Option.any_some, decide_eq_true_eq]
    constructor
    · intro heq
      exact h.sound.wellFormed.pids _ _ v u hv hu (by omega)
    · intro heq
      rw [heq, hu] at hv
      rw [← hpid, ← hpid', Option.some.inj hv]

theorem Rooted.family_eq (h : Rooted init s cs) (hc : c ∈ cs) :
    s.kernel.family c.rootPid = s.kernel.governed cs c := by
  rw [Kernel.family, Kernel.governed, List.filter_filterMap, List.filterMap_filter]
  refine List.filterMap_congr fun q _ => ?_
  cases ht : s.kernel.task q with
  | none => simp
  | some t =>
    have hiff := h.family_iff hc ht
    by_cases hroot : t.rootPid = c.rootPid
    · rw [if_pos (hiff.mp hroot)]
      simp [Option.filter, hroot]
    · rw [if_neg (mt hiff.mpr hroot)]
      simp [Option.filter, hroot]

end Governing

section Reports
variable {E : UserAccess U} {usecs : BitVec 32 → BitVec 32} {cs : List Call} {c : Call}
  {p : TaskPtr} {m m' : U} {pid : ℤ} {pl : UserPtr} {x : ProcLimit}

structure Tells (k : Kernel R) (usecs : BitVec 32 → BitVec 32) (cs : List Call) (p : TaskPtr)
    (x : ProcLimit) : Prop where
  limits : (x.rootPid, x.timeLimit, x.timeInterval) = limitsOf (governing (kids k.task) cs p)
  free : governing (kids k.task) cs p = none → x.figures = (-1, -1, -1)
  figures : ∀ c, governing (kids k.task) cs p = some c →
    k.family c.rootPid = k.governed cs c ∧ FamilyFigures k usecs c.rootPid x

theorem report_limits {t : TaskStruct R} (hx : k.report usecs t = some x) :
    (x.rootPid, x.timeLimit, x.timeInterval) = t.limits := by
  simp only [Kernel.report] at hx
  split_ifs at hx
  · cases hx
    rfl
  · obtain ⟨c, -, rfl⟩ := Option.map_eq_some_iff.mp hx
    rfl

theorem Rooted.tells (h : Rooted init s cs) {t : TaskStruct R} (hp : p ∈ s.kernel.processes)
    (ht : s.kernel.task p = some t) (hx : s.kernel.report usecs t = some x) :
    Tells s.kernel usecs cs p x := by
  have hlimits := decided_iff.mp (h.decided p t ht)
  refine ⟨(report_limits hx).trans hlimits, fun hnone => ?_, fun c hc => ?_⟩
  · rw [hnone] at hlimits
    have hroot : t.rootPid = -1 := congrArg Prod.fst hlimits
    rw [Kernel.report, if_pos hroot] at hx
    rw [← Option.some.inj hx]
    rfl
  · rw [hc] at hlimits
    have hroot : t.rootPid = c.rootPid := congrArg Prod.fst hlimits
    obtain ⟨u, hu, hpid⟩ := h.rooted c (governing_mem hc)
    have hpos := (h.sound.pids _ u hu).1
    refine ⟨h.family_eq (governing_mem hc), ?_⟩
    rw [← hroot]
    exact report_figures hp ht (by omega) hx

theorem report_of_run {tr : List (Activity × System R)} (hboot : Boot init s0)
    (hrun : (service R init).Run s0 tr) (caller : TaskPtr)
    (hq : Queried { (Machine.last s0 tr).kernel with current := caller } pid p)
    (hget : sysGetproclimit E usecs { (Machine.last s0 tr).kernel with current := caller } m pid
      pl = some (0, m')) :
    Tells (Machine.last s0 tr).kernel usecs (served s0 tr) p (E.read m' pl) := by
  have hlaw := rooted_run hboot hrun
  have hp : p ∈ (Machine.last s0 tr).kernel.processes := hq.mem
  obtain ⟨t, ht⟩ := Option.isSome_iff_exists.mp (hlaw.sound.wellFormed.processes p hp)
  exact hlaw.tells hp ht (hq.reported ht hget)

end Reports
section Sample

def spent : System Unit := { nested with kernel := nested.kernel.spend 2 700 300 }

def serviceRun : List (Activity × System Unit) :=
  (performAll bootSystem nestedEvents).map (fun e => (.call e.1, e.2)) ++ [(.spend 2 700 300, spent)]

theorem service_run : (service Unit 1).Run bootSystem serviceRun :=
  .cons (.call ⟨rfl, Step.fork rfl rfl (by decide) (by decide)⟩) <|
  .cons (.call ⟨rfl, Step.fork rfl rfl (by decide) (by decide)⟩) <|
  .cons (.call ⟨rfl, Step.fork rfl rfl (by decide) (by decide)⟩) <|
  .cons (.call ⟨rfl, Step.setproclimit (n := 5) rfl rfl⟩) <|
  .cons (.call ⟨rfl, Step.setproclimit (n := 5) rfl rfl⟩) <|
  .cons .spend <| .nil _

theorem nested_reported : ∃ m', sysGetproclimit userMemory id
    { spent.kernel with current := 1 } zeroedMemory 2 0x08050000 = some (0, m') ∧
    (userMemory.read m' 0x08050000).totalCpuTime = 1000 ∧
    Tells spent.kernel id [⟨3, 3, 0, 5⟩, ⟨2, 2, 1, 2⟩] 2 (userMemory.read m' 0x08050000) := by
  have hq : Queried { spent.kernel with current := 1 } 2 2 := .listed (by decide) rfl
  exact ⟨_, rfl, rfl, report_of_run boot_system service_run 1 hq rfl⟩

end Sample
end Proclimit
