import Cs345.Proclimit.Figures
import Mathlib.Algebra.BigOperators.Ring.List
import Mathlib.Algebra.Order.BigOperators.Group.List

namespace Proclimit

section Wrapped
variable {α : Type} {w n : ℕ}

theorem sum_ofNat (f : α → ℕ) (l : List α) :
    (l.map fun a => BitVec.ofNat w (f a)).sum = BitVec.ofNat w (l.map f).sum := by
  induction l with
  | nil => rfl
  | cons a l ih =>
    have hadd : BitVec.ofNat w (f a + (l.map f).sum) =
        BitVec.ofNat w (f a) + BitVec.ofNat w (l.map f).sum := BitVec.ofNat_add _ _
    rw [List.map_cons, List.map_cons, List.sum_cons, List.sum_cons, ih, hadd]

theorem toNat_ofNat_iff : (BitVec.ofNat w n).toNat = n ↔ n < 2 ^ w := by
  rw [BitVec.toNat_ofNat]
  constructor
  · intro h
    exact h ▸ Nat.mod_lt n (Nat.two_pow_pos w)
  · exact Nat.mod_eq_of_lt

end Wrapped

variable {R U : Type}

-- cputime_to_usecs where a jiffy is a millisecond and an unsigned long has 32 bits
def jiffiesToUsecs (jiffies : BitVec 32) : BitVec 32 := jiffies * 1000

def TaskStruct.jiffies (t : TaskStruct R) : ℕ := t.utime.toNat + t.stime.toNat

def TaskStruct.exactUsecs (t : TaskStruct R) : ℕ := 1000 * t.jiffies

def Kernel.familyJiffies (k : Kernel R) (root : ℤ) : ℕ :=
  ((k.family root).map TaskStruct.jiffies).sum

structure ExactTotal (k : Kernel R) (root : ℤ) (x : ProcLimit) : Prop where
  total : x.totalCpuTime.toNat = ((k.family root).map TaskStruct.exactUsecs).sum
  member : ∀ u ∈ k.family root, u.exactUsecs ≤ x.totalCpuTime.toNat
  unmarked : x.totalCpuTime ≠ -1

theorem usecs_eq (t : TaskStruct R) :
    t.usecs jiffiesToUsecs = BitVec.ofNat 32 t.exactUsecs := by
  have h1000 : (1000 : BitVec 32).toNat = 1000 := rfl
  apply BitVec.eq_of_toNat_eq
  simp only [TaskStruct.usecs, jiffiesToUsecs, TaskStruct.exactUsecs, TaskStruct.jiffies,
    BitVec.toNat_add, BitVec.toNat_mul, BitVec.toNat_ofNat, h1000]
  omega

section Families
variable {k : Kernel R} {root : ℤ} {x : ProcLimit}

theorem exact_sum (k : Kernel R) (root : ℤ) :
    ((k.family root).map TaskStruct.exactUsecs).sum = 1000 * k.familyJiffies root :=
  List.sum_map_mul_left _ _ _

theorem wrapped_total (hx : FamilyFigures k jiffiesToUsecs root x) :
    x.totalCpuTime = BitVec.ofNat 32 (1000 * k.familyJiffies root) := by
  rw [hx.total, ← exact_sum, ← sum_ofNat]
  exact congrArg List.sum (List.map_congr_left fun t _ => usecs_eq t)

theorem total_unmarked (hx : FamilyFigures k jiffiesToUsecs root x) : x.totalCpuTime ≠ -1 := by
  intro hmarked
  have htotal := congrArg BitVec.toNat ((wrapped_total hx).symm.trans hmarked)
  have hmarker : (-1 : BitVec 32).toNat = 4294967295 := rfl
  rw [BitVec.toNat_ofNat, hmarker] at htotal
  omega

theorem FamilyFigures.exactTotal_iff (hx : FamilyFigures k jiffiesToUsecs root x) :
    ExactTotal k root x ↔ k.familyJiffies root ≤ 4294967 := by
  have hexact : x.totalCpuTime.toNat = 1000 * k.familyJiffies root ↔
      1000 * k.familyJiffies root < 2 ^ 32 := by
    rw [wrapped_total hx]
    exact toNat_ofNat_iff
  constructor
  · intro h
    have hlt := hexact.mp (h.total.trans (exact_sum k root))
    omega
  · intro hle
    have htotal : x.totalCpuTime.toNat = ((k.family root).map TaskStruct.exactUsecs).sum :=
      (hexact.mpr (by omega)).trans (exact_sum k root).symm
    refine ⟨htotal, fun u hu => ?_, total_unmarked hx⟩
    rw [htotal]
    exact List.le_sum_of_mem (List.mem_map_of_mem hu)

end Families

theorem exact_total_iff {E : UserAccess U} {k : Kernel R} {p : TaskPtr} {t : TaskStruct R}
    {m m' : U} {pl : UserPtr} {pid : ℤ} (hq : Queried k pid p) (ht : k.task p = some t)
    (hroot : t.rootPid ≠ -1)
    (h : sysGetproclimit E jiffiesToUsecs k m pid pl = some (0, m')) :
    ExactTotal k t.rootPid (E.read m' pl) ↔ k.familyJiffies t.rootPid ≤ 4294967 :=
  (report_figures hq.mem ht hroot (hq.reported ht h)).exactTotal_iff

section Samples

theorem hour_exact : ExactTotal (listKernel [member 1 3600000, member 2 600000]) 1
    (userMemory.read (userMemory.write zeroedMemory 0x08050000
      ⟨1, 1, 2, 4200000000, 600000000, 3600000000⟩) 0x08050000) :=
  have hq : Queried (listKernel [member 1 3600000, member 2 600000]) (-1) 0 := .current (by decide)
  (exact_total_iff (E := userMemory) (m := zeroedMemory) (t := member 1 3600000) hq rfl
    (by decide) rfl).mpr (by decide)

theorem total_wraps : ∃ m', sysGetproclimit userMemory jiffiesToUsecs
    (listKernel [member 1 4294968]) zeroedMemory 1 0x08050000 = some (0, m') ∧
    (userMemory.read m' 0x08050000).totalCpuTime = 704 ∧
    ¬ ExactTotal (listKernel [member 1 4294968]) 1 (userMemory.read m' 0x08050000) := by
  refine ⟨_, rfl, rfl, fun h => ?_⟩
  have htotal : 704 = 4294968000 := h.total
  exact absurd htotal (by decide)

end Samples

end Proclimit
