import Cs345.Links
import Cs345.Proclimit.GetProclimit
import Cs345.Proclimit.Service
import Mathlib.Data.Set.Finite.Lattice

namespace Proclimit
variable {R U : Type}

section Memory

inductive ListHead where
  | children (p : TaskPtr)
  | sibling (p : TaskPtr)
  | tasks (p : TaskPtr)
deriving DecidableEq

structure Fields (R : Type) where
  pid : ℤ
  rootPid : ℤ
  timeLimit : ℤ
  timeInterval : ℤ
  utime : BitVec 32
  stime : BitVec 32
  rest : R

structure Memory (R : Type) where
  task : TaskPtr → Option (Fields R)
  next : ListHead → ListHead
  initTask : TaskPtr
  current : TaskPtr

def siblingEntry : ListHead → Option TaskPtr
  | .sibling p => some p
  | _ => none

def tasksEntry : ListHead → Option TaskPtr
  | .tasks p => some p
  | _ => none

namespace Memory

def setFields (m : Memory R) (p : TaskPtr) (root_pid limit interval : ℤ) : Memory R :=
  { m with
    task := Function.update m.task p ((m.task p).map fun t =>
      { t with rootPid := root_pid, timeLimit := limit, timeInterval := interval }) }

-- `rounds` bounds each loop over a list, the other number the recursion
def setproclimitDump (rounds : ℕ) : ℕ → Memory R → TaskPtr → ℤ → ℤ → ℤ → Option (Memory R)
  | 0, _, _, _, _, _ => none
  | depth + 1, m, cur, root_pid, limit, interval =>
    match m.task cur with
    | none => none
    | some _ =>
      Links.forEach Memory.next (.children cur)
        (fun m children_list => (siblingEntry children_list).bind fun childTask =>
          setproclimitDump rounds depth m childTask root_pid limit interval)
        rounds (m.next (.children cur)) (m.setFields cur root_pid limit interval)

def isPid (m : Memory R) (pid : ℤ) (pos : ListHead) : Bool :=
  (tasksEntry pos).any fun p => (m.task p).any fun t => t.pid = pid

def findProcess (rounds : ℕ) (m : Memory R) (pid : ℤ) : Option (Option TaskPtr) :=
  (Links.search m.next (.tasks m.initTask) (m.isPid pid) rounds (m.next (.tasks m.initTask))).map
    fun found => found.bind tasksEntry

def dumpFrom (rounds depth : ℕ) (m : Memory R) (p : TaskPtr) (limit interval : ℤ) :
    Option (ℤ × Memory R) :=
  match m.task p with
  | none => none
  | some t => (m.setproclimitDump rounds depth p t.pid limit interval).map fun m => (0, m)

def sysSetproclimit (rounds depth : ℕ) (m : Memory R) (pid limit interval : ℤ) :
    Option (ℤ × Memory R) :=
  if limit > interval then some (-EINVAL, m)
  else if pid = -1 then m.dumpFrom rounds depth m.current limit interval
  else if pid > -1 then
    match m.findProcess rounds pid with
    | none => none
    | some none => some (-EINVAL, m)
    | some (some p) => m.dumpFrom rounds depth p limit interval
  else if pid < -1 then some (-EINVAL, m)
  else some (0, m)

def familyTimes (rounds : ℕ) (m : Memory R) (cputimeToUsecs : BitVec 32 → BitVec 32)
    (rootPid : ℤ) (c : CpuTimes) : Option CpuTimes :=
  Links.forEach (fun _ => m.next) (.tasks m.initTask)
    (fun c pos => (tasksEntry pos).bind fun p => (m.task p).map fun task =>
      if task.rootPid = rootPid then
        c.count (cputimeToUsecs task.stime + cputimeToUsecs task.utime)
      else c)
    rounds (m.next (.tasks m.initTask)) c

section Get
variable (rounds : ℕ) (E : UserAccess U) (cputimeToUsecs : BitVec 32 → BitVec 32)

def getCurrent (m : Memory R) (u : U) (pl : UserPtr) : Option (ℤ × U) :=
  if E.accessOk pl = false then some (-EFAULT, u)
  else if E.readFault pl then some (-EINVAL, u)
  else
    match m.task m.current with
    | none => none
    | some currentTask =>
      let temp := { E.read u pl with
        rootPid := currentTask.rootPid
        timeLimit := currentTask.timeLimit
        timeInterval := currentTask.timeInterval }
      let min := cputimeToUsecs currentTask.stime + cputimeToUsecs currentTask.utime
      let max := cputimeToUsecs currentTask.stime + cputimeToUsecs currentTask.utime
      if temp.rootPid = -1 then
        some (copyOut E u pl { temp with totalCpuTime := -1, maxCpuTime := -1, minCpuTime := -1 })
      else
        (m.familyTimes rounds cputimeToUsecs temp.rootPid ⟨min, max, 0⟩).map fun c =>
          copyOut E u pl
            { temp with totalCpuTime := c.sum, maxCpuTime := c.max, minCpuTime := c.min }

def getByPid (m : Memory R) (u : U) (pid : ℤ) (pl : UserPtr) : Option (ℤ × U) :=
  match m.findProcess rounds pid with
  | none => none
  | some none => some (-EINVAL, u)
  | some (some p) =>
    if E.accessOk pl = false then some (-EFAULT, u)
    else if E.readFault pl then some (-EINVAL, u)
    else
      match m.task p with
      | none => none
      | some foundTask =>
        let temp := { E.read u pl with
          rootPid := foundTask.rootPid
          timeLimit := foundTask.timeLimit
          timeInterval := foundTask.timeInterval }
        let min := cputimeToUsecs foundTask.stime + cputimeToUsecs foundTask.utime
        let max := cputimeToUsecs foundTask.stime + cputimeToUsecs foundTask.utime
        if temp.rootPid = -1 then
          some (copyOut E u pl { temp with totalCpuTime := -1, maxCpuTime := -1, minCpuTime := -1 })
        else
          (m.familyTimes rounds cputimeToUsecs temp.rootPid ⟨min, max, 0⟩).map fun c =>
            copyOut E u pl
              { temp with totalCpuTime := c.sum, maxCpuTime := c.max, minCpuTime := c.min }

def sysGetproclimit (m : Memory R) (u : U) (pid : ℤ) (pl : UserPtr) : Option (ℤ × U) :=
  if pl = 0 then some (-EINVAL, u)
  else if pid = -1 then m.getCurrent rounds E cputimeToUsecs u pl
  else if pid > -1 then m.getByPid rounds E cputimeToUsecs u pid pl
  else if pid < -1 then some (-EINVAL, u)
  else some (0, u)

end Get

end Memory
end Memory

section Represents

def TaskStruct.fields (t : TaskStruct R) : Fields R :=
  ⟨t.pid, t.rootPid, t.timeLimit, t.timeInterval, t.utime, t.stime, t.rest⟩

structure Memory.Represents (m : Memory R) (k : Kernel R) : Prop where
  task : ∀ p, m.task p = (k.task p).map TaskStruct.fields
  children : ∀ p t, k.task p = some t →
    Links.Circle m.next (.children p) (t.children.map .sibling)
  processes : Links.Circle m.next (.tasks m.initTask) (k.processes.map .tasks)
  current : m.current = k.current

structure Kernel.Within (k : Kernel R) (rounds : ℕ) : Prop where
  children : ∀ p, (kids k.task p).length < rounds
  processes : k.processes.length < rounds

variable {m m' : Memory R} {k : Kernel R} {h h' : Heap R} {p : TaskPtr} {t : TaskStruct R}
  {rounds n : ℕ} {root limit interval : ℤ}

theorem Memory.dump_next (h : m.setproclimitDump rounds n p root limit interval = some m') :
    m'.next = m.next := by
  induction n generalizing m m' p with
  | zero => cases h
  | succ n ih =>
    rw [Memory.setproclimitDump] at h
    split at h
    · cases h
    · refine Links.forEach_keeps (I := fun s => s.next = m.next) (fun s a s' hs hbody => ?_)
        (show (m.setFields p root limit interval).next = m.next from rfl) h
      obtain ⟨c, -, hc⟩ := Option.bind_eq_some_iff.mp hbody
      exact (ih hc).trans hs

theorem Memory.Represents.setFields (hm : m.Represents { k with task := h }) (ht : h p = some t) :
    (m.setFields p root limit interval).Represents
      { k with task := Function.update h p (some (t.setLimits root limit interval)) } := by
  refine ⟨fun q => ?_, fun q u hu => ?_, hm.processes, hm.current⟩
  · by_cases hq : q = p
    · subst hq
      have hq := hm.task q
      simp only [ht, Option.map_some] at hq
      simp [Memory.setFields, hq, TaskStruct.fields, TaskStruct.setLimits]
    · simpa [Memory.setFields, hq] using hm.task q
  · by_cases hq : q = p
    · subst hq
      obtain rfl : t.setLimits root limit interval = u := by simpa using hu
      exact hm.children q t ht
    · exact hm.children q u (by simpa [hq] using hu)

structure Memory.At (m : Memory R) (links : ListHead → ListHead) (k : Kernel R)
    (ks : TaskPtr → List TaskPtr) (h : Heap R) : Prop where
  next : m.next = links
  represents : m.Represents { k with task := h }
  kids : kids h = ks

theorem dump_simulates {links : ListHead → ListHead} {ks : TaskPtr → List TaskPtr}
    (hks : ∀ p, (ks p).length < rounds) (n : ℕ) :
    ∀ {m : Memory R} {h h' : Heap R} {p : TaskPtr}, m.At links k ks h →
      setproclimitDump n h p root limit interval = some h' →
      ∃ m', m.setproclimitDump rounds n p root limit interval = some m' ∧ m'.At links k ks h' := by
  induction n with
  | zero => intro _ _ _ _ _ h; cases h
  | succ n ih =>
    intro m h h' p hm hd
    cases ht : h p with
    | none => simp [setproclimitDump, ht] at hd
    | some t =>
      simp only [setproclimitDump, ht] at hd
      have hp : m.task p = some t.fields := (hm.represents.task p).trans (by simp [ht])
      have hlen : t.children.length < rounds := by
        have := hks p
        rw [← hm.kids] at this
        simpa [Proclimit.kids, ht] using this
      have hv : visit root limit interval h p =
          some (Function.update h p (some (t.setLimits root limit interval))) := by
        simp [visit, ht]
      have hm1 : (m.setFields p root limit interval).At links k ks
          (Function.update h p (some (t.setLimits root limit interval))) :=
        ⟨hm.next, hm.represents.setFields ht, (visit_kids hv).trans hm.kids⟩
      have hcircle : Links.Circle links (.children p) (t.children.map .sibling) :=
        hm.next ▸ hm.represents.children p t ht
      obtain ⟨m', hfold, hm'⟩ : ∃ m', (t.children.map ListHead.sibling).foldlM
          (fun m pos => (siblingEntry pos).bind fun c =>
            Memory.setproclimitDump rounds n m c root limit interval)
          (m.setFields p root limit interval) = some m' ∧ m'.At links k ks h' :=
        Links.foldlM_simulates (e := ListHead.sibling)
          (g := fun h c => setproclimitDump n h c root limit interval)
          (fun _ _ _ _ hrel hg => ih hrel hg) hm1 hd
      refine ⟨m', ?_, hm'⟩
      rw [Memory.setproclimitDump, hp]
      refine Eq.trans ?_ hfold
      refine Eq.trans ?_ (hcircle.forEach Memory.next (fun s pos s' hs hbody => ?_)
        (by simpa using hlen) hm1.next)
      · rw [hm1.next, hm.next]
      · obtain ⟨c, -, hc⟩ := Option.bind_eq_some_iff.mp hbody
        exact (Memory.dump_next hc).trans hs

theorem find_represents (hm : m.Represents k) (hrounds : k.processes.length < rounds) (pid : ℤ) :
    m.findProcess rounds pid = some (findProcess k pid) := by
  have hsame : (m.isPid pid ∘ ListHead.tasks) =
      fun p => (k.task p).any fun t => decide (t.pid = pid) := by
    funext p
    simp only [Function.comp_apply, Memory.isPid, tasksEntry, Option.any_some, hm.task p]
    cases k.task p <;> rfl
  rw [Memory.findProcess, hm.processes.search (by simpa using hrounds), List.find?_map, hsame,
    Option.map_some, findProcess]
  cases k.processes.find? fun p => (k.task p).any fun t => decide (t.pid = pid) <;> rfl

theorem dumpFrom_simulates (hm : m.Represents k) (hk : k.Within rounds) {limit interval ret : ℤ}
    {k' : Kernel R} (h : dumpFrom n k p limit interval = some (ret, k')) :
    ∃ m', m.dumpFrom rounds n p limit interval = some (ret, m') ∧ m'.Represents k' ∧
      m'.next = m.next := by
  unfold dumpFrom at h
  split at h
  · cases h
  next t ht =>
    obtain ⟨h', hd, heq⟩ := Option.map_eq_some_iff.mp h
    cases heq
    have hat : m.At m.next k (kids k.task) k.task := ⟨rfl, hm, rfl⟩
    obtain ⟨m', hd', hm'⟩ := dump_simulates hk.children n hat hd
    have hp : m.task p = some t.fields := (hm.task p).trans (by simp [ht])
    refine ⟨m', ?_, hm'.represents, hm'.next⟩
    simp only [Memory.dumpFrom, hp, TaskStruct.fields, hd', Option.map_some]

theorem set_simulates (hm : m.Represents k) (hk : k.Within rounds) {pid limit interval ret : ℤ}
    {k' : Kernel R} (h : sysSetproclimit n k pid limit interval = some (ret, k')) :
    ∃ m', m.sysSetproclimit rounds n pid limit interval = some (ret, m') ∧ m'.Represents k' ∧
      m'.next = m.next := by
  have hstay {ret : ℤ} (h : some (ret, k) = some (ret, k')) : m.Represents k' := by
    cases h
    exact hm
  unfold sysSetproclimit at h
  rw [Memory.sysSetproclimit, find_represents hm hk.processes, hm.current]
  split_ifs at h ⊢
  · cases h
    exact ⟨m, rfl, hm, rfl⟩
  · exact dumpFrom_simulates hm hk h
  · cases hf : findProcess k pid with
    | none =>
      rw [hf] at h
      cases h
      exact ⟨m, rfl, hm, rfl⟩
    | some p =>
      rw [hf] at h
      exact dumpFrom_simulates hm hk h
  · cases h
    exact ⟨m, rfl, hm, rfl⟩
  · cases h
    exact ⟨m, rfl, hm, rfl⟩

theorem Kernel.WellFormed.exists_within (hk : k.WellFormed) : ∃ bound, ∀ rounds, bound ≤ rounds →
    k.Within rounds := by
  obtain ⟨b, hb⟩ := (hk.finite.image fun p => (kids k.task p).length).bddAbove
  refine ⟨max b k.processes.length + 1, fun rounds hle => ⟨fun p => ?_, by omega⟩⟩
  cases hp : k.task p with
  | none =>
    have : kids k.task p = [] := by simp [kids, hp]
    rw [this]
    exact Nat.lt_of_lt_of_le (Nat.succ_pos _) hle
  | some t =>
    have : (kids k.task p).length ≤ b := hb ⟨p, by simp [hp], rfl⟩
    omega

theorem linked_setproclimit (hk : k.WellFormed) (hm : m.Represents k) (pid limit interval : ℤ) :
    ∃ bound, ∀ rounds depth, bound ≤ rounds → bound ≤ depth → ∃ ret m' k',
      m.sysSetproclimit rounds depth pid limit interval = some (ret, m') ∧
      sysSetproclimit depth k pid limit interval = some (ret, k') ∧
      m'.Represents k' ∧ m'.next = m.next := by
  obtain ⟨b, hb⟩ := hk.exists_within
  obtain ⟨b', hb'⟩ := sysSetproclimit_total hk pid limit interval
  refine ⟨max b b', fun rounds depth hr hd => ?_⟩
  obtain ⟨ret, k', h⟩ := hb' depth (by omega)
  obtain ⟨m', hm', hrest⟩ := set_simulates hm (hb rounds (by omega)) h
  exact ⟨ret, m', k', hm', h, hrest⟩

theorem familyTimes_represents (hm : m.Represents k) (hrounds : k.processes.length < rounds)
    (usecs : BitVec 32 → BitVec 32) (root : ℤ) (c : CpuTimes) :
    m.familyTimes rounds usecs root c = familyTimes usecs k.task root k.processes c := by
  rw [Memory.familyTimes, hm.processes.forEach (fun _ => m.next) (fun _ _ _ _ _ => rfl)
    (by simpa using hrounds) rfl]
  generalize k.processes = l
  induction l generalizing c with
  | nil => rfl
  | cons p l ih =>
    rw [List.map_cons, List.foldlM_cons, familyTimes]
    simp only [tasksEntry, Option.bind_some, hm.task p]
    cases k.task p with
    | none => rfl
    | some t => exact ih _

section Get
variable {E : UserAccess U} {usecs : BitVec 32 → BitVec 32} {u : U} {pl : UserPtr}

theorem getCurrent_represents (hm : m.Represents k) (hrounds : k.processes.length < rounds) :
    m.getCurrent rounds E usecs u pl = getCurrent E usecs k u pl := by
  simp only [Memory.getCurrent, getCurrent, hm.current, hm.task, familyTimes_represents hm hrounds]
  cases k.task k.current <;> rfl

theorem getByPid_represents (hm : m.Represents k) (hrounds : k.processes.length < rounds) (pid : ℤ) :
    m.getByPid rounds E usecs u pid pl = getByPid E usecs k u pid pl := by
  simp only [Memory.getByPid, getByPid, find_represents hm hrounds, hm.task,
    familyTimes_represents hm hrounds]
  cases findProcess k pid with
  | none => rfl
  | some p =>
    dsimp only
    cases k.task p <;> rfl

theorem linked_getproclimit (hm : m.Represents k) (hrounds : k.processes.length < rounds)
    (E : UserAccess U) (usecs : BitVec 32 → BitVec 32) (u : U) (pid : ℤ) (pl : UserPtr) :
    m.sysGetproclimit rounds E usecs u pid pl = sysGetproclimit E usecs k u pid pl := by
  simp only [Memory.sysGetproclimit, sysGetproclimit, getCurrent_represents hm hrounds,
    getByPid_represents hm hrounds]

end Get

end Represents

section Sample

def bootMemory : Memory Unit where
  task p := (bootSystem.kernel.task p).map TaskStruct.fields
  next
    | .children 0 => .sibling 1
    | .sibling 1 => .children 0
    | .tasks 0 => .tasks 1
    | .tasks 1 => .tasks 0
    | pos => pos
  initTask := 0
  current := 0

def bootKernel : Kernel Unit := { bootSystem.kernel with current := 0 }

theorem boot_wellFormed : bootKernel.WellFormed := boot_system.wellFormed.run_as rfl

theorem boot_represented : bootMemory.Represents bootKernel := by
  refine ⟨fun _ => rfl, fun p t ht => ?_, ?_, rfl⟩
  · rcases boot_task ht with ⟨rfl, rfl⟩ | ⟨rfl, rfl⟩
    · exact ⟨.cons rfl (.last rfl), by decide⟩
    · exact ⟨.last rfl, by decide⟩
  · exact ⟨.cons rfl (.last rfl), by decide⟩

theorem boot_linked_set : ∃ bound, ∀ rounds depth, bound ≤ rounds → bound ≤ depth → ∃ ret m' k',
    bootMemory.sysSetproclimit rounds depth (-1) 1 2 = some (ret, m') ∧
    sysSetproclimit depth bootKernel (-1) 1 2 = some (ret, k') ∧
    m'.Represents k' ∧ m'.next = bootMemory.next :=
  linked_setproclimit boot_wellFormed boot_represented (-1) 1 2

def pairKernel : Kernel Unit := (pair.kernel.spend 1 700 0).spend 2 200 100

def pairMemory : Memory Unit where
  task p := (pairKernel.task p).map TaskStruct.fields
  next
    | .children 0 => .sibling 1
    | .sibling 1 => .children 0
    | .children 1 => .sibling 2
    | .sibling 2 => .children 1
    | .tasks 0 => .tasks 1
    | .tasks 1 => .tasks 2
    | .tasks 2 => .tasks 0
    | pos => pos
  initTask := 0
  current := 2

theorem pair_represented : pairMemory.Represents pairKernel := by
  refine ⟨fun _ => rfl, fun p t ht => ?_, ?_, rfl⟩
  · match p, ht with
    | 0, ht => cases ht; exact ⟨.cons rfl (.last rfl), by decide⟩
    | 1, ht => cases ht; exact ⟨.cons rfl (.last rfl), by decide⟩
    | 2, ht => cases ht; exact ⟨.last rfl, by decide⟩
    | _ + 3, ht => cases ht
  · exact ⟨.cons rfl (.cons rfl (.last rfl)), by decide⟩

theorem pair_linked_get : ∃ u,
    pairMemory.sysGetproclimit 3 userMemory id zeroedMemory 2 0x08050000 = some (0, u) ∧
    sysGetproclimit userMemory id pairKernel zeroedMemory 2 0x08050000 = some (0, u) ∧
    (u 0x08050000).rootPid = 1 ∧ (u 0x08050000).totalCpuTime = 1000 := by
  have hrounds : pairKernel.processes.length < 3 := by decide
  have hlist := linked_getproclimit pair_represented hrounds userMemory id zeroedMemory 2 0x08050000
  exact ⟨_, hlist.trans rfl, rfl, rfl, rfl⟩

end Sample
end Proclimit
