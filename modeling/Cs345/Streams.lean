import Mathlib.Logic.Relation
import Mathlib.Tactic.Common

namespace Streams
variable {σ α : Type}

inductive Act (α : Type) where
  | read (x : α)
  | eof
  | write (y : α)
  | exit

def Act.reads : Act α → Bool
  | .read _ => true
  | .eof => true
  | _ => false

def Act.output : Act α → List α
  | .write y => [y]
  | _ => []

inductive Takes : Act α → List α → List α → Prop
  | read {x : α} {xs : List α} : Takes (.read x) (x :: xs) xs
  | eof : Takes .eof [] []
  | write {y : α} {xs : List α} : Takes (.write y) xs xs
  | exit {xs : List α} : Takes .exit xs xs

theorem Takes.unique {a : Act α} {xs ys zs : List α} (hy : Takes a xs ys) (hz : Takes a xs zs) :
    ys = zs := by
  cases hy <;> cases hz <;> rfl

theorem Takes.same_read {a b : Act α} {xs ys zs : List α} (ha : a.reads = true)
    (hb : b.reads = true) (hy : Takes a xs ys) (hz : Takes b xs zs) : a = b := by
  cases hy with
  | read => cases hz <;> first | rfl | cases hb
  | eof => cases hz <;> first | rfl | cases hb
  | write => cases ha
  | exit => cases ha

inductive Evaluates (io : σ → Act α → σ → Prop) : ℕ → σ → List α → List α → Prop
  | exit {p q : σ} {xs : List α} : io p .exit q → Evaluates io 1 p xs []
  | move {n : ℕ} {p q : σ} {a : Act α} {xs xs' ys : List α} : a ≠ .exit → io p a q →
      Takes a xs xs' → Evaluates io n q xs' ys → Evaluates io (n + 1) p xs (a.output ++ ys)

def Produces (io : σ → Act α → σ → Prop) (p : σ) (xs ys : List α) : Prop :=
  ∃ n, Evaluates io n p xs ys

structure Deterministic (io : σ → Act α → σ → Prop) : Prop where
  same {p q r : σ} {a : Act α} : io p a q → io p a r → q = r
  both_read {p q r : σ} {a b : Act α} : io p a q → io p b r → a ≠ b →
    a.reads = true ∧ b.reads = true

section Determinism
variable {io : σ → Act α → σ → Prop}

theorem Deterministic.next (hdet : Deterministic io) {p q r : σ} {a b : Act α}
    {xs ys zs : List α} (ha : io p a q) (hb : io p b r) (hy : Takes a xs ys)
    (hz : Takes b xs zs) : a = b ∧ q = r ∧ ys = zs := by
  have hab : a = b := by
    by_contra hne
    obtain ⟨hra, hrb⟩ := hdet.both_read ha hb hne
    exact hne (hy.same_read hra hrb hz)
  subst hab
  exact ⟨rfl, hdet.same ha hb, hy.unique hz⟩

theorem Evaluates.exits (hdet : Deterministic io) {n : ℕ} {p q : σ} {xs ys : List α}
    (h : Evaluates io n p xs ys) (hio : io p .exit q) : ys = [] := by
  cases h with
  | exit _ => rfl
  | move hne hio' htakes _ => exact absurd (hdet.next hio' hio htakes .exit).1 hne

theorem Evaluates.follow (hdet : Deterministic io) {n : ℕ} {p q : σ} {a : Act α}
    {xs xs' ys : List α} (h : Evaluates io n p xs ys) (hio : io p a q) (ht : Takes a xs xs')
    (ha : a ≠ .exit) : ∃ m zs, m < n ∧ Evaluates io m q xs' zs ∧ ys = a.output ++ zs := by
  cases h with
  | exit hio' => exact absurd (hdet.next hio hio' ht .exit).1 ha
  | move _ hio' ht' hrest =>
    obtain ⟨rfl, rfl, rfl⟩ := hdet.next hio hio' ht ht'
    exact ⟨_, _, Nat.lt_succ_self _, hrest, rfl⟩

theorem Produces.unique (hdet : Deterministic io) {p : σ} {xs ys zs : List α}
    (hy : Produces io p xs ys) (hz : Produces io p xs zs) : ys = zs := by
  obtain ⟨n, hy⟩ := hy
  obtain ⟨m, hz⟩ := hz
  induction hy generalizing m zs with
  | exit hio => exact (hz.exits hdet hio).symm
  | move ha hio ht _ ih =>
    obtain ⟨_, _, -, hrest, rfl⟩ := hz.follow hdet hio ht ha
    rw [ih _ hrest]

end Determinism

section Unreading
variable {io : σ → Act α → σ → Prop} {p q : σ}

def Reaches (io : σ → Act α → σ → Prop) : σ → σ → Prop :=
  Relation.ReflTransGen fun p q => ∃ a, io p a q

def Unreading (io : σ → Act α → σ → Prop) (p : σ) : Prop :=
  ∀ q, Reaches io p q → ∀ a r, io q a r → a.reads = false

theorem Unreading.next (h : Unreading io p) {a : Act α} (hio : io p a q) : Unreading io q :=
  fun r hr => h r (.head ⟨a, hio⟩ hr)

theorem Takes.unread {a : Act α} {xs ys : List α} (h : Takes a xs ys) (ha : a.reads = false)
    (zs : List α) : Takes a zs zs := by
  cases h with
  | read => cases ha
  | eof => cases ha
  | write => exact .write
  | exit => exact .exit

theorem Produces.any_input (h : Unreading io p) {xs ys : List α} (hy : Produces io p xs ys)
    (zs : List α) : Produces io p zs ys := by
  obtain ⟨n, hy⟩ := hy
  induction hy with
  | exit hio => exact ⟨1, .exit hio⟩
  | @move n p q a xs xs' ys ha hio ht _ ih =>
    obtain ⟨m, hrest⟩ := ih (h.next hio)
    exact ⟨m + 1, .move ha hio (ht.unread (h p .refl a q hio) zs) hrest⟩

end Unreading

section Chain

def inputOf (input : List α) (out : ℕ → List α) : ℕ → List α
  | 0 => input
  | j + 1 => out j

def Composes (io : σ → Act α → σ → Prop) (start : ℕ → σ) (input : List α) (k : ℕ)
    (out : ℕ → List α) : Prop :=
  ∀ j ≤ k, Produces io (start j) (inputOf input out j) (out j)

theorem Composes.unique {io : σ → Act α → σ → Prop} (hdet : Deterministic io) {start : ℕ → σ}
    {input : List α} {k : ℕ} {out out' : ℕ → List α} (h : Composes io start input k out)
    (h' : Composes io start input k out') : ∀ j ≤ k, out j = out' j := by
  intro j
  induction j with
  | zero => exact fun hj => (h 0 hj).unique hdet (h' 0 hj)
  | succ j ih =>
    intro hj
    have hin := h' (j + 1) hj
    simp only [inputOf, ← ih (Nat.le_of_succ_le hj)] at hin
    exact (h (j + 1) hj).unique hdet hin

section Through
variable {io : σ → Act α → σ → Prop} {capacity : ℕ} {xs ys : List α}

def Through (io : σ → Act α → σ → Prop) (capacity : ℕ) : List σ → List α → List α → Prop
  | [], xs, ys => ys = xs
  | [p], xs, ys => Produces io p xs ys
  | p :: q :: ps, xs, ys =>
    ∃ zs, Produces io p xs zs ∧ zs.length ≤ capacity ∧ Through io capacity (q :: ps) zs ys

theorem Through.any_input {p : σ} {ps : List σ} (hp : Unreading io p)
    (h : Through io capacity (p :: ps) xs ys) (zs : List α) :
    Through io capacity (p :: ps) zs ys := by
  cases ps with
  | nil => exact Produces.any_input hp h zs
  | cons q ps =>
    obtain ⟨mid, hfirst, hfits, hrest⟩ := h
    exact ⟨mid, hfirst.any_input hp zs, hfits, hrest⟩

theorem composes_succ {start : ℕ → σ} {k : ℕ} {out : ℕ → List α} :
    Composes io start xs (k + 1) out ↔ Produces io (start 0) xs (out 0) ∧
      Composes io (fun j => start (j + 1)) (out 0) k fun j => out (j + 1) := by
  constructor
  · intro h
    refine ⟨h 0 (Nat.zero_le _), fun j hj => ?_⟩
    have hnext := h (j + 1) (Nat.succ_le_succ hj)
    cases j <;> exact hnext
  · rintro ⟨hfirst, hrest⟩ j hj
    cases j with
    | zero => exact hfirst
    | succ j =>
      have hnext := hrest j (Nat.le_of_succ_le_succ hj)
      cases j <;> exact hnext

theorem through_iff {start : ℕ → σ} (p : σ) (ps : List σ)
    (hstart : ∀ j ≤ ps.length, (p :: ps)[j]? = some (start j)) :
    Through io capacity (p :: ps) xs ys ↔ ∃ out, Composes io start xs ps.length out ∧
      (∀ j < ps.length, (out j).length ≤ capacity) ∧ out ps.length = ys := by
  induction ps generalizing p xs start with
  | nil =>
    obtain rfl : p = start 0 := Option.some.inj (hstart 0 (Nat.zero_le _))
    constructor
    · intro h
      refine ⟨fun _ => ys, fun j hj => ?_, fun j hj => absurd hj (Nat.not_lt_zero j), rfl⟩
      obtain rfl := Nat.le_zero.mp hj
      exact h
    · rintro ⟨out, hcomp, -, rfl⟩
      exact hcomp 0 (Nat.zero_le _)
  | cons q ps ih =>
    obtain rfl : p = start 0 := Option.some.inj (hstart 0 (Nat.zero_le _))
    have hih (zs : List α) := @ih zs _ q fun j hj => hstart (j + 1) (Nat.succ_le_succ hj)
    constructor
    · rintro ⟨zs, hfirst, hfits, hthrough⟩
      obtain ⟨out, hcomp, hlen, hlast⟩ := (hih zs).mp hthrough
      refine ⟨fun j => j.casesOn zs out, composes_succ.mpr ⟨hfirst, hcomp⟩, fun j hj => ?_, hlast⟩
      cases j with
      | zero => exact hfits
      | succ j => exact hlen j (Nat.lt_of_succ_lt_succ hj)
    · rintro ⟨out, hcomp, hlen, hlast⟩
      obtain ⟨hfirst, hcomp⟩ := composes_succ.mp hcomp
      exact ⟨out 0, hfirst, hlen 0 (Nat.succ_pos _), (hih (out 0)).mpr
        ⟨fun j => out (j + 1), hcomp, fun j hj => hlen (j + 1) (Nat.succ_lt_succ hj), hlast⟩⟩

end Through

end Chain

section Channels

structure Channel (α : Type) where
  taken : List α
  unread : List α

namespace Channel

def fresh (xs : List α) : Channel α := ⟨[], xs⟩

def sent (c : Channel α) : List α := c.taken ++ c.unread

def push (c : Channel α) (y : α) : Channel α := { c with unread := c.unread ++ [y] }

def pull (c : Channel α) : Channel α :=
  match c.unread with
  | [] => c
  | x :: xs => ⟨c.taken ++ [x], xs⟩

@[simp] theorem sent_push (c : Channel α) (y : α) : (c.push y).sent = c.sent ++ [y] := by
  simp [sent, push]

@[simp] theorem taken_push (c : Channel α) (y : α) : (c.push y).taken = c.taken := rfl

@[simp] theorem sent_pull (c : Channel α) : c.pull.sent = c.sent := by
  cases hc : c.unread <;> simp [sent, pull, hc]

theorem pull_unread {c : Channel α} {x : α} {xs : List α} (h : c.unread = x :: xs) :
    c.pull.unread = xs := by
  simp [pull, h]

theorem sent_eq {c : Channel α} (h : c.taken = []) : c.sent = c.unread := by
  simp [sent, h]

end Channel

end Channels

end Streams
