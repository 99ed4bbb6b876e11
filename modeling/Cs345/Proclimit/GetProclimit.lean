import Cs345.Proclimit.SetProclimit

namespace Proclimit
variable {R U : Type}

def EFAULT : ℤ := 14

abbrev UserPtr := BitVec 32

structure ProcLimit where
  rootPid : ℤ
  timeLimit : ℤ
  timeInterval : ℤ
  totalCpuTime : BitVec 32
  maxCpuTime : BitVec 32
  minCpuTime : BitVec 32

-- access_ok, copy_from_user and copy_to_user; the two faults say that bytes were left uncopied
structure UserAccess (U : Type) where
  accessOk : UserPtr → Bool
  readFault : UserPtr → Bool
  writeFault : UserPtr → Bool
  read : U → UserPtr → ProcLimit
  write : U → UserPtr → ProcLimit → U
  read_write : ∀ m pl x, writeFault pl = false → read (write m pl x) pl = x

def UserAccess.Accessible (E : UserAccess U) (pl : UserPtr) : Prop :=
  pl ≠ 0 ∧ E.accessOk pl = true ∧ E.readFault pl = false ∧ E.writeFault pl = false

structure CpuTimes where
  min : BitVec 32
  max : BitVec 32
  sum : BitVec 32

def CpuTimes.count (c : CpuTimes) (i : BitVec 32) : CpuTimes where
  min := if c.min < i then i else c.min
  max := if c.max > i then i else c.max
  sum := c.sum + i

def TaskStruct.usecs (cputimeToUsecs : BitVec 32 → BitVec 32) (t : TaskStruct R) : BitVec 32 :=
  cputimeToUsecs t.stime + cputimeToUsecs t.utime

def familyTimes (cputimeToUsecs : BitVec 32 → BitVec 32) (h : Heap R) (rootPid : ℤ) :
    List TaskPtr → CpuTimes → Option CpuTimes
  | [], c => some c
  | p :: ps, c =>
    match h p with
    | none => none
    | some task =>
      familyTimes cputimeToUsecs h rootPid ps
        (if task.rootPid = rootPid then c.count (task.usecs cputimeToUsecs) else c)

def copyOut (E : UserAccess U) (m : U) (pl : UserPtr) (temp : ProcLimit) : ℤ × U :=
  (if E.writeFault pl then -EINVAL else 0, E.write m pl temp)

section Branches
variable (E : UserAccess U) (cputimeToUsecs : BitVec 32 → BitVec 32)

def getCurrent (k : Kernel R) (m : U) (pl : UserPtr) : Option (ℤ × U) :=
  if E.accessOk pl = false then some (-EFAULT, m)
  else if E.readFault pl then some (-EINVAL, m)
  else
    match k.task k.current with
    | none => none
    | some currentTask =>
      let temp := { E.read m pl with
        rootPid := currentTask.rootPid
        timeLimit := currentTask.timeLimit
        timeInterval := currentTask.timeInterval }
      let min := cputimeToUsecs currentTask.stime + cputimeToUsecs currentTask.utime
      let max := cputimeToUsecs currentTask.stime + cputimeToUsecs currentTask.utime
      if temp.rootPid = -1 then
        some (copyOut E m pl { temp with totalCpuTime := -1, maxCpuTime := -1, minCpuTime := -1 })
      else
        (familyTimes cputimeToUsecs k.task temp.rootPid k.processes ⟨min, max, 0⟩).map fun c =>
          copyOut E m pl
            { temp with totalCpuTime := c.sum, maxCpuTime := c.max, minCpuTime := c.min }

def getByPid (k : Kernel R) (m : U) (pid : ℤ) (pl : UserPtr) : Option (ℤ × U) :=
  match findProcess k pid with
  | none => some (-EINVAL, m)
  | some p =>
    if E.accessOk pl = false then some (-EFAULT, m)
    else if E.readFault pl then some (-EINVAL, m)
    else
      match k.task p with
      | none => none
      | some foundTask =>
        let temp := { E.read m pl with
          rootPid := foundTask.rootPid
          timeLimit := foundTask.timeLimit
          timeInterval := foundTask.timeInterval }
        let min := cputimeToUsecs foundTask.stime + cputimeToUsecs foundTask.utime
        let max := cputimeToUsecs foundTask.stime + cputimeToUsecs foundTask.utime
        if temp.rootPid = -1 then
          some (copyOut E m pl { temp with totalCpuTime := -1, maxCpuTime := -1, minCpuTime := -1 })
        else
          (familyTimes cputimeToUsecs k.task temp.rootPid k.processes ⟨min, max, 0⟩).map fun c =>
            copyOut E m pl
              { temp with totalCpuTime := c.sum, maxCpuTime := c.max, minCpuTime := c.min }

def sysGetproclimit (k : Kernel R) (m : U) (pid : ℤ) (pl : UserPtr) : Option (ℤ × U) :=
  if pl = 0 then some (-EINVAL, m)
  else if pid = -1 then getCurrent E cputimeToUsecs k m pl
  else if pid > -1 then getByPid E cputimeToUsecs k m pid pl
  else if pid < -1 then some (-EINVAL, m)
  else some (0, m)

end Branches

theorem familyTimes_total {h : Heap R} {l : List TaskPtr} (hl : ∀ p ∈ l, (h p).isSome = true)
    (usecs : BitVec 32 → BitVec 32) (root : ℤ) (c : CpuTimes) :
    ∃ c', familyTimes usecs h root l c = some c' := by
  induction l generalizing c with
  | nil => exact ⟨c, rfl⟩
  | cons p l ih =>
    obtain ⟨t, ht⟩ := Option.isSome_iff_exists.mp (hl p List.mem_cons_self)
    simp only [familyTimes, ht]
    exact ih (fun q hq => hl q (List.mem_cons_of_mem _ hq)) _

section Calls
variable {E : UserAccess U} {usecs : BitVec 32 → BitVec 32} {k : Kernel R} {p : TaskPtr}
  {t : TaskStruct R} {m : U} {pl : UserPtr}

def Kernel.report (k : Kernel R) (usecs : BitVec 32 → BitVec 32) (t : TaskStruct R) :
    Option ProcLimit :=
  if t.rootPid = -1 then some ⟨t.rootPid, t.timeLimit, t.timeInterval, -1, -1, -1⟩
  else
    (familyTimes usecs k.task t.rootPid k.processes ⟨t.usecs usecs, t.usecs usecs, 0⟩).map fun c =>
      ⟨t.rootPid, t.timeLimit, t.timeInterval, c.sum, c.max, c.min⟩

def answer (E : UserAccess U) (usecs : BitVec 32 → BitVec 32) (k : Kernel R) (m : U)
    (pl : UserPtr) (t : TaskStruct R) : Option (ℤ × U) :=
  if E.accessOk pl = false then some (-EFAULT, m)
  else if E.readFault pl then some (-EINVAL, m)
  else (k.report usecs t).map (copyOut E m pl)

theorem getCurrent_eq (ht : k.task k.current = some t) :
    getCurrent E usecs k m pl = answer E usecs k m pl t := by
  simp only [getCurrent, answer, ht, Kernel.report, TaskStruct.usecs]
  split_ifs
  · rfl
  · rfl
  · rfl
  · rw [Option.map_map]
    rfl

theorem getByPid_eq {pid : ℤ} (hf : findProcess k pid = some p) (ht : k.task p = some t) :
    getByPid E usecs k m pid pl = answer E usecs k m pl t := by
  simp only [getByPid, answer, hf, ht, Kernel.report, TaskStruct.usecs]
  split_ifs
  · rfl
  · rfl
  · rfl
  · rw [Option.map_map]
    rfl

theorem getproclimit_self (hpl : pl ≠ 0) (ht : k.task k.current = some t) :
    sysGetproclimit E usecs k m (-1) pl = answer E usecs k m pl t := by
  rw [sysGetproclimit, if_neg hpl, if_pos rfl]
  exact getCurrent_eq ht

theorem getproclimit_found {pid : ℤ} (hpl : pl ≠ 0) (hpid : 0 ≤ pid)
    (hf : findProcess k pid = some p) (ht : k.task p = some t) :
    sysGetproclimit E usecs k m pid pl = answer E usecs k m pl t := by
  rw [sysGetproclimit, if_neg hpl, if_neg (by omega), if_pos (by omega)]
  exact getByPid_eq hf ht

theorem answer_written {m' : U} (h : answer E usecs k m pl t = some (0, m')) :
    (E.accessOk pl = true ∧ E.readFault pl = false ∧ E.writeFault pl = false) ∧
      ∃ x, k.report usecs t = some x ∧ E.write m pl x = m' := by
  simp only [answer] at h
  split_ifs at h with hok hread
  · cases h
  · cases h
  · obtain ⟨x, hx, hout⟩ := Option.map_eq_some_iff.mp h
    have hret : (if E.writeFault pl = true then -EINVAL else 0) = (0 : ℤ) := congrArg Prod.fst hout
    refine ⟨⟨by simpa using hok, by simpa using hread, ?_⟩, x, hx, congrArg Prod.snd hout⟩
    by_contra hwrite
    rw [if_pos (by simpa using hwrite)] at hret
    cases hret

theorem Kernel.WellFormed.report_total (hk : k.WellFormed) (usecs : BitVec 32 → BitVec 32)
    (t : TaskStruct R) : ∃ x, k.report usecs t = some x ∧ x.rootPid = t.rootPid ∧
      x.timeLimit = t.timeLimit ∧ x.timeInterval = t.timeInterval := by
  simp only [Kernel.report]
  split_ifs with hroot
  · exact ⟨_, rfl, rfl, rfl, rfl⟩
  · obtain ⟨c, hc⟩ := familyTimes_total hk.processes usecs t.rootPid
      ⟨t.usecs usecs, t.usecs usecs, 0⟩
    rw [hc]
    exact ⟨_, rfl, rfl, rfl, rfl⟩

theorem answer_total (hk : k.WellFormed) (E : UserAccess U) (usecs : BitVec 32 → BitVec 32) (m : U)
    (pl : UserPtr) (t : TaskStruct R) : ∃ ret m', answer E usecs k m pl t = some (ret, m') := by
  obtain ⟨x, hx, -⟩ := hk.report_total usecs t
  simp only [answer, hx]
  split_ifs
  · exact ⟨_, _, rfl⟩
  · exact ⟨_, _, rfl⟩
  · exact ⟨_, _, rfl⟩

end Calls

end Proclimit
