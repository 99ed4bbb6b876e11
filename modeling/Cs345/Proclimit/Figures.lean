import Cs345.Extremes
import Cs345.Proclimit.Syscall
import Mathlib.Data.BitVec
import Mathlib.Algebra.BigOperators.Group.List.Basic

namespace Proclimit
variable {R U : Type}

def Kernel.family (k : Kernel R) (root : ℤ) : List (TaskStruct R) :=
  (k.processes.filterMap k.task).filter (·.rootPid = root)

def Kernel.cpuTimes (k : Kernel R) (usecs : BitVec 32 → BitVec 32) (root : ℤ) : List ℕ :=
  (k.family root).map fun u => (u.usecs usecs).toNat

inductive Queried (k : Kernel R) : ℤ → TaskPtr → Prop
  | current : k.current ∈ k.processes → Queried k (-1) k.current
  | listed {pid : ℤ} {p : TaskPtr} : 0 ≤ pid → findProcess k pid = some p → Queried k pid p

section Walk
variable {h : Heap R} {usecs : BitVec 32 → BitVec 32} {root : ℤ}

theorem foldl_count (l : List (BitVec 32)) : ∀ c : CpuTimes,
    (l.foldl CpuTimes.count c).min.toNat = (l.map BitVec.toNat).foldl max c.min.toNat ∧
      (l.foldl CpuTimes.count c).max.toNat = (l.map BitVec.toNat).foldl min c.max.toNat ∧
      (l.foldl CpuTimes.count c).sum = c.sum + l.sum := by
  induction l with
  | nil =>
    intro c
    exact ⟨rfl, rfl, (add_zero c.sum).symm⟩
  | cons i l ih =>
    intro c
    have hmin : (c.count i).min.toNat = max c.min.toNat i.toNat := by
      simp only [CpuTimes.count, BitVec.lt_def]
      split_ifs <;> omega
    have hmax : (c.count i).max.toNat = min c.max.toNat i.toNat := by
      simp only [CpuTimes.count, gt_iff_lt, BitVec.lt_def]
      split_ifs <;> omega
    have hsum : (c.count i).sum = c.sum + i := rfl
    obtain ⟨h1, h2, h3⟩ := ih (c.count i)
    rw [hmin] at h1
    rw [hmax] at h2
    rw [hsum, add_assoc, ← List.sum_cons] at h3
    exact ⟨h1, h2, h3⟩

theorem familyTimes_eq {l : List TaskPtr} {c c' : CpuTimes}
    (hc : familyTimes usecs h root l c = some c') :
    c' = (((l.filterMap h).filter (·.rootPid = root)).map (·.usecs usecs)).foldl CpuTimes.count c := by
  induction l generalizing c with
  | nil => exact (Option.some.inj hc).symm
  | cons p l ih =>
    cases ht : h p with
    | none => simp [familyTimes, ht] at hc
    | some t =>
      simp only [familyTimes, ht] at hc
      rw [ih hc, List.filterMap_cons_some ht]
      by_cases hroot : t.rootPid = root
      · simp [hroot]
      · simp [hroot]

theorem familyTimes_live {l : List TaskPtr} {c c' : CpuTimes}
    (hc : familyTimes usecs h root l c = some c') : ∀ p ∈ l, (h p).isSome = true := by
  induction l generalizing c with
  | nil => exact fun p hp => absurd hp List.not_mem_nil
  | cons q l ih =>
    cases ht : h q with
    | none => simp [familyTimes, ht] at hc
    | some t =>
      simp only [familyTimes, ht] at hc
      intro p hp
      rcases List.mem_cons.mp hp with rfl | hp
      · simp [ht]
      · exact ih hc p hp

end Walk

section Reports
variable {E : UserAccess U} {usecs : BitVec 32 → BitVec 32} {k : Kernel R} {p : TaskPtr}
  {t : TaskStruct R} {m m' : U} {pl : UserPtr} {pid : ℤ} {x : ProcLimit}

theorem Queried.mem (hq : Queried k pid p) : p ∈ k.processes := by
  cases hq with
  | current h => exact h
  | listed _ h => exact (findProcess_some h).1

theorem Queried.call (hq : Queried k pid p) (ht : k.task p = some t) (hpl : pl ≠ 0) :
    sysGetproclimit E usecs k m pid pl = answer E usecs k m pl t := by
  cases hq with
  | current _ => exact getproclimit_self hpl ht
  | listed hpos hf => exact getproclimit_found hpl hpos hf ht

theorem Queried.reported (hq : Queried k pid p) (ht : k.task p = some t)
    (h : sysGetproclimit E usecs k m pid pl = some (0, m')) :
    k.report usecs t = some (E.read m' pl) := by
  by_cases hpl : pl = 0
  · rw [sysGetproclimit, if_pos hpl] at h
    cases h
  · obtain ⟨⟨-, -, hwrite⟩, x, hx, rfl⟩ := answer_written ((hq.call ht hpl).symm.trans h)
    rw [hx, E.read_write m pl x hwrite]

theorem mem_family (hp : p ∈ k.processes) (ht : k.task p = some t) : t ∈ k.family t.rootPid :=
  List.mem_filter.mpr ⟨List.mem_filterMap.mpr ⟨p, hp, ht⟩, decide_eq_true rfl⟩

structure FamilyFigures (k : Kernel R) (usecs : BitVec 32 → BitVec 32) (root : ℤ)
    (x : ProcLimit) : Prop where
  largest : IsGreatest {i | i ∈ k.cpuTimes usecs root} x.minCpuTime.toNat
  smallest : IsLeast {i | i ∈ k.cpuTimes usecs root} x.maxCpuTime.toNat
  total : x.totalCpuTime = ((k.family root).map (·.usecs usecs)).sum

-- the two comparisons stand the wrong way round
theorem report_figures (hp : p ∈ k.processes) (ht : k.task p = some t) (hroot : t.rootPid ≠ -1)
    (hx : k.report usecs t = some x) : FamilyFigures k usecs t.rootPid x := by
  rw [Kernel.report, if_neg hroot] at hx
  obtain ⟨c, hc, rfl⟩ := Option.map_eq_some_iff.mp hx
  obtain rfl := familyTimes_eq hc
  obtain ⟨hmin, hmax, hsum⟩ := foldl_count ((k.family t.rootPid).map (·.usecs usecs))
    ⟨t.usecs usecs, t.usecs usecs, 0⟩
  have hseed : (t.usecs usecs).toNat ∈ k.cpuTimes usecs t.rootPid :=
    List.mem_map.mpr ⟨t, mem_family hp ht, rfl⟩
  have htimes : ((k.family t.rootPid).map (·.usecs usecs)).map BitVec.toNat =
      k.cpuTimes usecs t.rootPid := List.map_map
  rw [htimes] at hmin hmax
  refine ⟨?_, ?_, hsum.trans (zero_add _)⟩
  · exact hmin ▸ Extremes.isGreatest_of_seed hseed
  · exact hmax ▸ Extremes.isLeast_of_seed hseed

def ReportsExtremes (k : Kernel R) (usecs : BitVec 32 → BitVec 32) (root : ℤ) (x : ProcLimit) :
    Prop :=
  IsGreatest {i | i ∈ k.cpuTimes usecs root} x.maxCpuTime.toNat ∧
    IsLeast {i | i ∈ k.cpuTimes usecs root} x.minCpuTime.toNat

theorem FamilyFigures.reportsExtremes_iff {root : ℤ} (hx : FamilyFigures k usecs root x) :
    ReportsExtremes k usecs root x ↔
      ∀ i ∈ k.cpuTimes usecs root, ∀ j ∈ k.cpuTimes usecs root, i = j :=
  Extremes.exchanged_iff hx.largest hx.smallest

theorem reports_extremes_iff (hq : Queried k pid p) (ht : k.task p = some t)
    (hroot : t.rootPid ≠ -1) (h : sysGetproclimit E usecs k m pid pl = some (0, m')) :
    ReportsExtremes k usecs t.rootPid (E.read m' pl) ↔
      ∀ i ∈ k.cpuTimes usecs t.rootPid, ∀ j ∈ k.cpuTimes usecs t.rootPid, i = j :=
  (report_figures hq.mem ht hroot (hq.reported ht h)).reportsExtremes_iff

end Reports

section Agreement
variable {E : UserAccess U} {usecs : BitVec 32 → BitVec 32}

structure NumberedList (R : Type) extends Kernel R where
  nonneg : ∀ p ∈ processes, ∀ t, task p = some t → 0 ≤ t.pid
  distinct : ∀ p ∈ processes, ∀ q ∈ processes, ∀ t u, task p = some t → task q = some u →
    t.pid = u.pid → p = q

def ProcLimit.figures (x : ProcLimit) : BitVec 32 × BitVec 32 × BitVec 32 :=
  (x.totalCpuTime, x.maxCpuTime, x.minCpuTime)

theorem FamilyFigures.agree {k : Kernel R} {root : ℤ} {x y : ProcLimit}
    (hx : FamilyFigures k usecs root x) (hy : FamilyFigures k usecs root y) :
    x.figures = y.figures := by
  have htotal : x.totalCpuTime = y.totalCpuTime := hx.total.trans hy.total.symm
  have hmax : x.maxCpuTime = y.maxCpuTime :=
    BitVec.eq_of_toNat_eq (hx.smallest.unique hy.smallest)
  have hmin : x.minCpuTime = y.minCpuTime :=
    BitVec.eq_of_toNat_eq (hx.largest.unique hy.largest)
  rw [ProcLimit.figures, htotal, hmax, hmin]
  rfl

namespace NumberedList
variable (k : NumberedList R) {p q : TaskPtr} {t u : TaskStruct R} {l : List TaskPtr}

theorem queried (hp : p ∈ k.processes) (ht : k.task p = some t) : Queried k.toKernel t.pid p :=
  .listed (k.nonneg p hp t ht)
    (findProcess_eq hp ht fun q hq u hu hpid => k.distinct q hq p hp u t hu ht hpid)

def permute (hl : l.Perm k.processes) : NumberedList R where
  toKernel := { k.toKernel with processes := l }
  nonneg p hp := k.nonneg p (hl.mem_iff.mp hp)
  distinct p hp q hq := k.distinct p (hl.mem_iff.mp hp) q (hl.mem_iff.mp hq)

theorem family_permute (hl : l.Perm k.processes) (root : ℤ) :
    ((k.permute hl).family root).Perm (k.family root) :=
  (hl.filterMap k.task).filter _

theorem figures_permute (hl : l.Perm k.processes) {root : ℤ} {x : ProcLimit}
    (hx : FamilyFigures (k.permute hl).toKernel usecs root x) :
    FamilyFigures k.toKernel usecs root x := by
  have hfamily := k.family_permute hl root
  have htimes : {i | i ∈ (k.permute hl).cpuTimes usecs root} = {i | i ∈ k.cpuTimes usecs root} :=
    Set.ext fun i => (hfamily.map _).mem_iff
  exact ⟨htimes ▸ hx.largest, htimes ▸ hx.smallest, hx.total.trans (hfamily.map _).sum_eq⟩

theorem report_permute (hl : l.Perm k.processes) (hp : p ∈ k.processes) (ht : k.task p = some t)
    (hroot : t.rootPid ≠ -1) {x : ProcLimit} (hx : k.report usecs t = some x) :
    (k.permute hl).report usecs t = some x := by
  have hfigures := report_figures hp ht hroot hx
  rw [Kernel.report, if_neg hroot] at hx
  obtain ⟨c, hc, rfl⟩ := Option.map_eq_some_iff.mp hx
  have hlive := familyTimes_live hc
  obtain ⟨c', hc'⟩ := familyTimes_total (fun q hq => hlive q (hl.mem_iff.mp hq)) usecs t.rootPid
    ⟨t.usecs usecs, t.usecs usecs, 0⟩
  have hx' : (k.permute hl).report usecs t =
      some ⟨t.rootPid, t.timeLimit, t.timeInterval, c'.sum, c'.max, c'.min⟩ := by
    rw [Kernel.report, if_neg hroot]
    exact congrArg _ hc'
  have hsame := (k.figures_permute hl
    (report_figures (hl.mem_iff.mpr hp) ht hroot hx')).agree hfigures
  simp only [ProcLimit.figures, Prod.mk.injEq] at hsame
  obtain ⟨hsum, hmax, hmin⟩ := hsame
  rw [hx', hsum, hmax, hmin]

theorem members_agree {m ma mb : U} {pl : UserPtr} (hp : p ∈ k.processes) (hq : q ∈ k.processes)
    (ht : k.task p = some t) (hu : k.task q = some u) (hroot : t.rootPid ≠ -1)
    (hfamily : u.rootPid = t.rootPid)
    (ha : sysGetproclimit E usecs k.toKernel m t.pid pl = some (0, ma))
    (hb : sysGetproclimit E usecs k.toKernel m u.pid pl = some (0, mb)) :
    (E.read ma pl).figures = (E.read mb pl).figures ∧
      ∀ l, l.Perm k.processes →
        sysGetproclimit E usecs { k.toKernel with processes := l } m t.pid pl = some (0, ma) := by
  have hx := (k.queried hp ht).reported ht ha
  have hy := (k.queried hq hu).reported hu hb
  constructor
  · have hfigures := report_figures hq hu (hfamily ▸ hroot) hy
    exact (report_figures hp ht hroot hx).agree (hfamily ▸ hfigures)
  · intro l hl
    have hpl : pl ≠ 0 := by
      rintro rfl
      cases ha
    have hperm := k.report_permute hl hp ht hroot hx
    have hcall : sysGetproclimit E usecs (k.permute hl).toKernel m t.pid pl =
        answer E usecs (k.permute hl).toKernel m pl t :=
      ((k.permute hl).queried (hl.mem_iff.mpr hp) ht).call ht hpl
    refine hcall.trans ?_
    rw [← ha, (k.queried hp ht).call ht hpl, answer, answer, hperm, hx]

end NumberedList
end Agreement

section Samples

def listKernel (l : List (TaskStruct Unit)) : Kernel Unit where
  task p := l[p]?
  processes := List.range l.length
  current := 0

def member (pid : ℤ) (utime : BitVec 32) : TaskStruct Unit where
  pid := pid
  rootPid := 1
  timeLimit := 1
  timeInterval := 2
  utime := utime
  stime := 0
  children := []
  rest := ()

def twins : Kernel Unit := listKernel [member 1 7, member 2 7]

theorem twins_report : ReportsExtremes twins id 1
    (userMemory.read (userMemory.write zeroedMemory 0x08050000 ⟨1, 1, 2, 14, 7, 7⟩) 0x08050000) :=
  have hq : Queried twins 2 1 := .listed (by decide) rfl
  (reports_extremes_iff (E := userMemory) (m := zeroedMemory) (t := member 2 7) hq rfl (by decide)
    rfl).mpr (by decide)

theorem extremes_exchanged : ∃ m', sysGetproclimit userMemory id
    (listKernel [member 1 7, member 2 9]) zeroedMemory 1 0x08050000 = some (0, m') ∧
    ¬ ReportsExtremes (listKernel [member 1 7, member 2 9]) id 1 (userMemory.read m' 0x08050000) := by
  refine ⟨_, rfl, fun h => ?_⟩
  have hle : 9 ≤ 7 := h.1.2 (List.mem_cons_of_mem _ List.mem_cons_self)
  exact absurd hle (by decide)

def numberedList (l : List (TaskStruct Unit)) (hpos : ∀ t ∈ l, 0 ≤ t.pid)
    (hpids : (l.map TaskStruct.pid).Nodup) : NumberedList Unit where
  toKernel := listKernel l
  nonneg p _ t ht := hpos t (List.mem_of_getElem? ht)
  distinct p hp q _ t u ht hu heq := by
    refine (List.getElem?_inj (by simpa [listKernel] using hp) hpids).mp ?_
    rw [List.getElem?_map, List.getElem?_map]
    exact (congrArg (Option.map _) ht).trans ((congrArg some heq).trans
      (congrArg (Option.map _) hu).symm)

def couple : NumberedList Unit :=
  numberedList [member 1 7, member 2 9] (by decide) (by decide)

theorem couple_agree : ∃ ma mb,
    sysGetproclimit userMemory id couple.toKernel zeroedMemory 1 0x08050000 = some (0, ma) ∧
    sysGetproclimit userMemory id couple.toKernel zeroedMemory 2 0x08050000 = some (0, mb) ∧
    (userMemory.read ma 0x08050000).figures = (userMemory.read mb 0x08050000).figures :=
  ⟨_, _, rfl, rfl, (couple.members_agree (E := userMemory) (p := 0) (q := 1) (t := member 1 7)
    (u := member 2 9) (by decide) (by decide) rfl rfl (by decide) rfl rfl rfl).1⟩

end Samples

end Proclimit
