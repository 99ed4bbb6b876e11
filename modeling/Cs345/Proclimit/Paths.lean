import Cs345.Proclimit.GetProclimit

namespace Proclimit
variable {R U : Type}

structure NumberedState (R : Type) extends ProcessState R where
  nonneg : ∀ p t, task p = some t → 0 ≤ t.pid

namespace NumberedState
variable (k : NumberedState R) {p : TaskPtr} {t : TaskStruct R}

theorem find_listed (hp : p ∈ k.processes) (ht : k.task p = some t) :
    findProcess k.toKernel t.pid = some p :=
  findProcess_eq hp ht fun q _ u hu hup => k.wellFormed.pids q p u t hu ht hup

theorem getproclimit_listed (E : UserAccess U) (usecs : BitVec 32 → BitVec 32) (m : U) {pl : UserPtr}
    (hpl : pl ≠ 0) (hp : p ∈ k.processes) (ht : k.task p = some t) :
    sysGetproclimit E usecs k.toKernel m t.pid pl = answer E usecs k.toKernel m pl t :=
  getproclimit_found hpl (k.nonneg p t ht) (k.find_listed hp ht) ht

end NumberedState

structure RunningState (R : Type) extends NumberedState R where
  listed : current ∈ processes

def Kernel.currentPid (k : Kernel R) : ℤ := ((k.task k.current).map TaskStruct.pid).getD 0

namespace RunningState
variable (k : RunningState R)

theorem current_task : ∃ t, k.task k.current = some t ∧ k.currentPid = t.pid := by
  obtain ⟨t, ht⟩ := Option.isSome_iff_exists.mp k.wellFormed.current
  exact ⟨t, ht, by simp [Kernel.currentPid, ht]⟩

variable (E : UserAccess U) (usecs : BitVec 32 → BitVec 32) (m : U) (pl : UserPtr)

theorem setproclimit_currentPid (n : ℕ) (limit interval : ℤ) :
    sysSetproclimit n k.toKernel k.currentPid limit interval =
      sysSetproclimit n k.toKernel (-1) limit interval := by
  obtain ⟨t, ht, hpid⟩ := k.current_task
  have hpos := k.nonneg _ t ht
  have hne : t.pid ≠ -1 := by omega
  have hgt : t.pid > -1 := by omega
  simp only [sysSetproclimit, hpid, if_neg hne, if_pos hgt, if_true, k.find_listed k.listed ht]

theorem paths_agree (limit interval : ℤ) :
    (∃ ret m', sysGetproclimit E usecs k.toKernel m (-1) pl = some (ret, m') ∧
      sysGetproclimit E usecs k.toKernel m k.currentPid pl = some (ret, m')) ∧
    ∃ depth, ∀ n, depth ≤ n → ∃ ret k',
      sysSetproclimit n k.toKernel (-1) limit interval = some (ret, k') ∧
      sysSetproclimit n k.toKernel k.currentPid limit interval = some (ret, k') := by
  constructor
  · by_cases hpl : pl = 0
    · exact ⟨-EINVAL, m, if_pos hpl, if_pos hpl⟩
    · obtain ⟨t, ht, hpid⟩ := k.current_task
      obtain ⟨ret, m', ha⟩ := answer_total k.wellFormed E usecs m pl t
      refine ⟨ret, m', (getproclimit_self hpl ht).trans ha, ?_⟩
      rw [hpid]
      exact (k.getproclimit_listed E usecs m hpl k.listed ht).trans ha
  · obtain ⟨depth, hdepth⟩ := sysSetproclimit_total k.wellFormed (-1) limit interval
    refine ⟨depth, fun n hn => ?_⟩
    obtain ⟨ret, k', h⟩ := hdepth n hn
    exact ⟨ret, k', h, (k.setproclimit_currentPid n limit interval).trans h⟩

end RunningState
end Proclimit
