import Cs345.Forest

namespace Proclimit

abbrev TaskPtr := ℕ

structure TaskStruct (R : Type) where
  pid : ℤ
  rootPid : ℤ
  timeLimit : ℤ
  timeInterval : ℤ
  utime : BitVec 32
  stime : BitVec 32
  children : List TaskPtr
  rest : R

abbrev Heap (R : Type) := TaskPtr → Option (TaskStruct R)

variable {R : Type}

def TaskStruct.setLimits (t : TaskStruct R) (root limit interval : ℤ) : TaskStruct R :=
  { t with rootPid := root, timeLimit := limit, timeInterval := interval }

@[simp] theorem setLimits_children (t : TaskStruct R) (root limit interval : ℤ) :
    (t.setLimits root limit interval).children = t.children := rfl

def kids (h : Heap R) (p : TaskPtr) : List TaskPtr := ((h p).map TaskStruct.children).getD []

theorem mem_kids {h : Heap R} {p c : TaskPtr} :
    c ∈ kids h p ↔ ∃ t, h p = some t ∧ c ∈ t.children := by
  simp only [kids]
  cases h p <;> simp

structure Kernel (R : Type) where
  task : Heap R
  processes : List TaskPtr
  current : TaskPtr

structure Kernel.WellFormed (k : Kernel R) : Prop where
  finite : {p | (k.task p).isSome = true}.Finite
  current : (k.task k.current).isSome = true
  processes : ∀ p ∈ k.processes, (k.task p).isSome = true
  children : ∀ p c, c ∈ kids k.task p → (k.task c).isSome = true
  acyclic : Forest.Acyclic (kids k.task)
  oneParent : ∀ p q c, c ∈ kids k.task p → c ∈ kids k.task q → p = q
  pids : ∀ p q t u, k.task p = some t → k.task q = some u → t.pid = u.pid → p = q

structure ProcessState (R : Type) extends Kernel R where
  wellFormed : toKernel.WellFormed

theorem Kernel.WellFormed.exists_rank {k : Kernel R} (hk : k.WellFormed) :
    ∃ rank : TaskPtr → ℕ, ∀ p c, Forest.Edge (kids k.task) p c → rank c < rank p :=
  Forest.exists_rank hk.finite (fun p c h => hk.children p c h) hk.acyclic

theorem Kernel.WellFormed.exists_depth {k : Kernel R} (hk : k.WellFormed) :
    ∃ depth : TaskPtr → ℕ, ∀ p c, Forest.Edge (kids k.task) p c → depth p < depth c :=
  hk.acyclic.exists_depth hk.finite (fun p c h => by
    obtain ⟨t, ht, -⟩ := mem_kids.mp h
    simp [ht])

end Proclimit
