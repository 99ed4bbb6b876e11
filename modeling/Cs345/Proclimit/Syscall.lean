import Cs345.Proclimit.Paths
import Cs345.Proclimit.Process

namespace Proclimit
variable {R U : Type}

structure Host (R U : Type) where
  kernel : Kernel R
  mem : U

def NR_setproclimit : ℕ := 341
def NR_getproclimit : ℕ := 342

section Calls
variable (E : UserAccess U) (cputimeToUsecs : BitVec 32 → BitVec 32) (depth : ℕ)

def sysCall (nr : ℕ) (ebx ecx edx : BitVec 32) (s : Host R U) : Option (ℤ × Host R U) :=
  if nr = NR_setproclimit then
    (sysSetproclimit depth s.kernel ebx.toInt ecx.toInt edx.toInt).map fun r =>
      (r.1, { s with kernel := r.2 })
  else if nr = NR_getproclimit then
    (sysGetproclimit E cputimeToUsecs s.kernel s.mem ebx.toInt ecx).map fun r =>
      (r.1, { s with mem := r.2 })
  else none

def syscallReturn (ret : ℤ) : ℤ := if -4095 ≤ ret ∧ ret < 0 then -1 else ret

def syscall (nr : ℕ) (ebx ecx edx : BitVec 32) (s : Host R U) : Option (ℤ × Host R U) :=
  (sysCall E cputimeToUsecs depth nr ebx ecx edx s).map fun r => (syscallReturn r.1, r.2)

def getproclimit (pid : BitVec 32) (pl : UserPtr) (s : Host R U) : Option (ℤ × Host R U) :=
  syscall E cputimeToUsecs depth 342 pid pl 0 s

def setproclimit (pid limit interval : BitVec 32) (s : Host R U) : Option (ℤ × Host R U) :=
  syscall E cputimeToUsecs depth 342 pid limit interval s

end Calls

section RoundTrip
variable (E : UserAccess U) (usecs : BitVec 32 → BitVec 32)

def RoundTrip (s : Host R U) (pid limit interval : BitVec 32) (pl : UserPtr) : Prop :=
  ∃ depth, ∀ n, depth ≤ n → ∃ s1 s2,
    setproclimit E usecs n pid limit interval s = some (0, s1) ∧
    getproclimit E usecs n pid pl s1 = some (0, s2) ∧
    (E.read s2.mem pl).rootPid = pid.toInt ∧ (E.read s2.mem pl).timeLimit = limit.toInt ∧
    (E.read s2.mem pl).timeInterval = interval.toInt

variable {E usecs} {k : NumberedState R} {p : TaskPtr} {t : TaskStruct R} {m m' : U}
  {pid limit interval : BitVec 32} {pl : UserPtr} {n : ℕ} {x : ProcLimit}

@[simp] theorem syscallReturn_eq_zero {ret : ℤ} : syscallReturn ret = 0 ↔ ret = 0 := by
  simp only [syscallReturn]
  split_ifs with h
  · exact iff_of_false (by decide) (Int.ne_of_lt h.2)
  · rfl

theorem answer_accessible (hpl : E.Accessible pl) (hx : k.report usecs t = some x) :
    answer E usecs k.toKernel m pl t = some (0, E.write m pl x) := by
  obtain ⟨-, hok, hread, hwrite⟩ := hpl
  simp [answer, hok, hread, hx, copyOut, hwrite]

theorem syscall_342 (ebx ecx edx : BitVec 32) (s : Host R U) :
    syscall E usecs n 342 ebx ecx edx s =
      (sysGetproclimit E usecs s.kernel s.mem ebx.toInt ecx).map fun r =>
        (syscallReturn r.1, { s with mem := r.2 }) := by
  have hcall : sysCall E usecs n 342 ebx ecx edx s =
      (sysGetproclimit E usecs s.kernel s.mem ebx.toInt ecx).map fun r =>
        (r.1, { s with mem := r.2 }) := rfl
  rw [syscall, hcall, Option.map_map]
  rfl

theorem syscall_get (hp : p ∈ k.processes) (ht : k.task p = some t) (hpid : t.pid = pid.toInt)
    (hpl : pl ≠ 0) (edx : BitVec 32) :
    syscall E usecs n 342 pid pl edx ⟨k.toKernel, m⟩ =
      (answer E usecs k.toKernel m pl t).map fun r => (syscallReturn r.1, ⟨k.toKernel, r.2⟩) := by
  have hget := k.getproclimit_listed E usecs m hpl hp ht
  rw [hpid] at hget
  rw [syscall_342, hget]

theorem syscall_get_accessible (hp : p ∈ k.processes) (ht : k.task p = some t)
    (hpid : t.pid = pid.toInt) (hpl : E.Accessible pl) (hx : k.report usecs t = some x)
    (edx : BitVec 32) :
    syscall E usecs n 342 pid pl edx ⟨k.toKernel, m⟩ =
      some (0, ⟨k.toKernel, E.write m pl x⟩) := by
  rw [syscall_get hp ht hpid hpl.1, answer_accessible hpl hx]
  rfl

theorem syscall_get_zero {edx : BitVec 32} {s : Host R U} (hp : p ∈ k.processes)
    (ht : k.task p = some t) (hpid : t.pid = pid.toInt)
    (h : syscall E usecs n 342 pid pl edx ⟨k.toKernel, m⟩ = some (0, s)) : E.Accessible pl := by
  by_cases hpl : pl = 0
  · have hnull : sysGetproclimit E usecs k.toKernel m pid.toInt pl = some (-EINVAL, m) := if_pos hpl
    rw [syscall_342, hnull] at h
    cases h
  · rw [syscall_get hp ht hpid hpl] at h
    obtain ⟨⟨ret, m'⟩, ha, hr⟩ := Option.map_eq_some_iff.mp h
    obtain rfl : ret = 0 := syscallReturn_eq_zero.mp (congrArg Prod.fst hr)
    obtain ⟨⟨hok, hread, hwrite⟩, -⟩ := answer_written ha
    exact ⟨hpl, hok, hread, hwrite⟩

theorem RoundTrip.already_set (hp : p ∈ k.processes) (ht : k.task p = some t)
    (hpid : t.pid = pid.toInt) (hpl : E.Accessible pl)
    (h : RoundTrip E usecs ⟨k.toKernel, m⟩ pid limit interval pl) :
    E.Accessible limit ∧ t.rootPid = pid.toInt ∧ t.timeLimit = limit.toInt ∧
      t.timeInterval = interval.toInt := by
  obtain ⟨x, hx, hroot, hlim, hint⟩ := k.wellFormed.report_total usecs t
  obtain ⟨depth, h⟩ := h
  obtain ⟨s1, s2, hset, hget, h1, h2, h3⟩ := h depth (Nat.le_refl _)
  -- both macros make call 342, so the limit is where the first one writes
  have hacc := syscall_get_zero hp ht hpid hset
  cases (syscall_get_accessible hp ht hpid hacc hx interval).symm.trans hset
  cases (syscall_get_accessible hp ht hpid hpl hx 0).symm.trans hget
  simp only [E.read_write _ _ _ hpl.2.2.2] at h1 h2 h3
  exact ⟨hacc, hroot.symm.trans h1, hlim.symm.trans h2, hint.symm.trans h3⟩

theorem round_trip_of_set (hp : p ∈ k.processes) (ht : k.task p = some t)
    (hpid : t.pid = pid.toInt) (hpl : E.Accessible pl) (hacc : E.Accessible limit)
    (h1 : t.rootPid = pid.toInt) (h2 : t.timeLimit = limit.toInt)
    (h3 : t.timeInterval = interval.toInt) :
    RoundTrip E usecs ⟨k.toKernel, m⟩ pid limit interval pl := by
  obtain ⟨x, hx, hroot, hlim, hint⟩ := k.wellFormed.report_total usecs t
  refine ⟨0, fun n _ => ⟨_, _, syscall_get_accessible hp ht hpid hacc hx interval,
    syscall_get_accessible hp ht hpid hpl hx 0, ?_⟩⟩
  simp only [E.read_write _ _ _ hpl.2.2.2]
  exact ⟨hroot.trans h1, hlim.trans h2, hint.trans h3⟩

theorem round_trip_iff (hp : p ∈ k.processes) (ht : k.task p = some t) (hpid : t.pid = pid.toInt)
    (hpl : E.Accessible pl) :
    RoundTrip E usecs ⟨k.toKernel, m⟩ pid limit interval pl ↔
      E.Accessible limit ∧ t.rootPid = pid.toInt ∧ t.timeLimit = limit.toInt ∧
        t.timeInterval = interval.toInt :=
  ⟨fun h => h.already_set hp ht hpid hpl, fun ⟨hacc, h1, h2, h3⟩ =>
    round_trip_of_set hp ht hpid hpl hacc h1 h2 h3⟩

end RoundTrip

section Sample

def Sound.numbered {init : TaskPtr} {s : System R} (h : Sound init s) : NumberedState R where
  toKernel := s.kernel
  wellFormed := h.wellFormed
  nonneg p t ht := (h.pids p t ht).1

def userMemory : UserAccess (UserPtr → ProcLimit) where
  accessOk pl := pl < 0xC0000000
  readFault pl := pl < 4096
  writeFault pl := pl < 4096
  read m pl := m pl
  write m pl x := Function.update m pl x
  read_write m pl x _ := Function.update_self pl x m

def zeroedMemory : UserPtr → ProcLimit := fun _ => ⟨0, 0, 0, 0, 0, 0⟩

def preset : System Unit := perform bootSystem (.setproclimit 1 1 0x08050000 0x08050000)

theorem preset_reachable : (families Unit 1).Reachable preset := by
  have hset : (families Unit 1).step bootSystem (.setproclimit 1 1 0x08050000 0x08050000) preset :=
    Step.setproclimit (n := 5) rfl rfl
  exact .step (.init boot_system) hset

theorem limits_not_set : ¬ RoundTrip userMemory id ⟨bootSystem.kernel, zeroedMemory⟩ 1 10 11
    0x08050000 := by
  intro h
  obtain ⟨-, hroot, -⟩ := h.already_set (E := userMemory) (k := (sound_boot boot_system).numbered)
    (p := 1) (List.mem_singleton_self 1) rfl (by decide)
    ⟨by decide, by decide, by decide, by decide⟩
  exact absurd hroot (by decide)

theorem preset_round_trip : RoundTrip userMemory id ⟨preset.kernel, zeroedMemory⟩ 1 0x08050000
    0x08050000 0x08060000 :=
  (round_trip_iff (E := userMemory) (k := (sound_reachable preset_reachable).numbered) (p := 1)
    (List.mem_singleton_self 1) rfl (by decide)
    ⟨by decide, by decide, by decide, by decide⟩).mpr
    ⟨⟨by decide, by decide, by decide, by decide⟩, by decide, by decide, by decide⟩

def pair : System Unit := perform (perform bootSystem (.fork 1 2 2)) (.setproclimit 2 1 1 2)

theorem pair_reachable : (families Unit 1).Reachable pair := by
  have hfork : (families Unit 1).step bootSystem (.fork 1 2 2) (perform bootSystem (.fork 1 2 2)) :=
    Step.fork rfl rfl (by decide) (by decide)
  have hset : (families Unit 1).step (perform bootSystem (.fork 1 2 2)) (.setproclimit 2 1 1 2)
      pair := Step.setproclimit (n := 5) rfl rfl
  exact .step (.step (.init boot_system) hfork) hset

def pairRunning : RunningState Unit where
  toNumberedState := (sound_reachable pair_reachable).numbered
  listed := List.mem_cons_of_mem _ (List.mem_singleton_self 2)

theorem pair_paths_agree :
    (∃ ret m', sysGetproclimit userMemory id pair.kernel zeroedMemory (-1) 0x08050000 =
        some (ret, m') ∧
      sysGetproclimit userMemory id pair.kernel zeroedMemory 2 0x08050000 = some (ret, m')) ∧
    ∃ depth, ∀ n, depth ≤ n → ∃ ret k',
      sysSetproclimit n pair.kernel (-1) 3 4 = some (ret, k') ∧
      sysSetproclimit n pair.kernel 2 3 4 = some (ret, k') :=
  pairRunning.paths_agree userMemory id zeroedMemory 0x08050000 3 4

end Sample
end Proclimit
