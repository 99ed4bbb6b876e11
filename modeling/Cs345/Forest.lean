import Mathlib.Logic.Relation
import Mathlib.Data.Set.Card
import Mathlib.Tactic.Common

namespace Forest
variable {α : Type}

section Rank
variable {r : α → α → Prop}

theorem not_transGen_self (rank : α → ℕ) (hrank : ∀ a b, r a b → rank b < rank a) (a : α) :
    ¬ Relation.TransGen r a a := by
  have hlt {a b : α} (h : Relation.TransGen r a b) : rank b < rank a := by
    induction h with
    | single h => exact hrank _ _ h
    | tail _ h ih => exact (hrank _ _ h).trans ih
  exact fun h => absurd (hlt h) (lt_irrefl _)

theorem exists_rank {L : Set α} (hL : L.Finite) (hmem : ∀ a b, r a b → b ∈ L)
    (hac : ∀ a, ¬ Relation.TransGen r a a) : ∃ rank : α → ℕ, ∀ a b, r a b → rank b < rank a := by
  have hsub (a : α) : {b | Relation.TransGen r a b} ⊆ L := by
    intro b hb
    cases hb with
    | single h => exact hmem _ _ h
    | tail _ h => exact hmem _ _ h
  refine ⟨fun a => {b | Relation.TransGen r a b}.ncard, fun a b hab => ?_⟩
  apply Set.ncard_lt_ncard _ (hL.subset (hsub a))
  constructor
  · intro c hc
    exact Relation.TransGen.head hab hc
  · intro h
    exact hac b (h (Relation.TransGen.single hab))

end Rank

def Edge (kids : α → List α) (a b : α) : Prop := b ∈ kids a

def Reaches (kids : α → List α) : α → α → Prop := Relation.ReflTransGen (Edge kids)

def Acyclic (kids : α → List α) : Prop := ∀ a, ¬ Relation.TransGen (Edge kids) a a

variable {kids : α → List α}

theorem Reaches.refl (a : α) : Reaches kids a a := Relation.ReflTransGen.refl

theorem Reaches.step {a b c : α} (h : Reaches kids a b) (hc : c ∈ kids b) : Reaches kids a c :=
  Relation.ReflTransGen.tail h hc

theorem Reaches.trans {a b c : α} (h : Reaches kids a b) (h' : Reaches kids b c) :
    Reaches kids a c := Relation.ReflTransGen.trans h h'

theorem Reaches.within {V : α → Prop} (hV : ∀ a, V a → ∀ b ∈ kids a, V b) {a b : α} (ha : V a)
    (h : Reaches kids a b) : V b := by
  induction h with
  | refl => exact ha
  | tail _ hb ih => exact hV _ ih _ hb

theorem reaches_iff_head {a c : α} :
    Reaches kids a c ↔ a = c ∨ ∃ b ∈ kids a, Reaches kids b c := by
  constructor
  · intro h
    rcases Relation.ReflTransGen.cases_head h with rfl | ⟨b, hb, h⟩
    · exact .inl rfl
    · exact .inr ⟨b, hb, h⟩
  · rintro (rfl | ⟨b, hb, h⟩)
    · exact .refl _
    · exact Relation.ReflTransGen.head hb h

theorem reaches_iff_tail {a c : α} :
    Reaches kids a c ↔ c = a ∨ ∃ b, Reaches kids a b ∧ c ∈ kids b := by
  constructor
  · intro h
    rcases Relation.ReflTransGen.cases_tail h with h | ⟨b, h, hc⟩
    · exact .inl h
    · exact .inr ⟨b, h, hc⟩
  · rintro (rfl | ⟨b, h, hc⟩)
    · exact .refl _
    · exact h.step hc

theorem Acyclic.exists_depth {L : Set α} (hac : Acyclic kids) (hL : L.Finite)
    (hmem : ∀ a b, Edge kids a b → a ∈ L) :
    ∃ depth : α → ℕ, ∀ a b, Edge kids a b → depth a < depth b := by
  obtain ⟨depth, hd⟩ := exists_rank (r := Function.swap (Edge kids)) hL
    (fun a b h => hmem b a h) (fun a h => hac a (Relation.transGen_swap.mp h))
  exact ⟨depth, fun a b h => hd b a h⟩

theorem Acyclic.antisymm (hac : Acyclic kids) {a b : α} (h : Reaches kids a b)
    (h' : Reaches kids b a) : a = b := by
  rcases Relation.reflTransGen_iff_eq_or_transGen.mp h with rfl | h
  · rfl
  · exact absurd (h.trans_left h') (hac a)

theorem Reaches.through_parent {a b c : α}
    (hpar : ∀ p q c, c ∈ kids p → c ∈ kids q → p = q) (hb : c ∈ kids b) (h : Reaches kids a c)
    (hne : a ≠ c) : Reaches kids a b := by
  rcases reaches_iff_tail.mp h with rfl | ⟨p, hp, hc⟩
  · exact absurd rfl hne
  · exact hpar p b c hc hb ▸ hp

section Traverse
variable {σ : Type} (f : σ → α → Option σ)

def traverse (kids : α → List α) (f : σ → α → Option σ) : ℕ → σ → α → Option σ
  | 0, _, _ => none
  | n + 1, s, a => (f s a).bind fun s' => (kids a).foldlM (traverse kids f n) s'

theorem traverse_total {rank : α → ℕ} (hrank : ∀ a b, Edge kids a b → rank b < rank a)
    {V : α → Prop} (hV : ∀ a b, Edge kids a b → V b) {I : σ → Prop}
    (hf : ∀ s a, I s → V a → ∃ s', f s a = some s' ∧ I s') {n : ℕ} :
    ∀ a, V a → rank a < n → ∀ s, I s → ∃ s', traverse kids f n s a = some s' ∧ I s' := by
  induction n with
  | zero => intro a _ h; exact absurd h (Nat.not_lt_zero _)
  | succ n ih =>
    intro a hVa ha s hs
    obtain ⟨s1, h1, hI⟩ := hf s a hs hVa
    have hlist (l : List α) (hl : ∀ b ∈ l, b ∈ kids a) : ∀ s, I s →
        ∃ s', l.foldlM (traverse kids f n) s = some s' ∧ I s' := by
      induction l with
      | nil => exact fun s hs => ⟨s, rfl, hs⟩
      | cons b l ihl =>
        intro s hs
        have hedge : Edge kids a b := hl b List.mem_cons_self
        have hb : rank b < n := by have := hrank a b hedge; omega
        obtain ⟨s2, h2, hI2⟩ := ih b (hV a b hedge) hb s hs
        obtain ⟨s3, h3, hI3⟩ := ihl (fun c hc => hl c (List.mem_cons_of_mem _ hc)) s2 hI2
        exact ⟨s3, by simp [List.foldlM_cons, h2, h3], hI3⟩
    obtain ⟨s2, h2, hI2⟩ := hlist (kids a) (fun _ h => h) s1 hI
    exact ⟨s2, by simp [traverse, h1, h2], hI2⟩

theorem traverse_visits {n : ℕ} {s s' : σ} {a : α} (h : traverse kids f n s a = some s') :
    ∃ l : List α, (∀ b, b ∈ l ↔ Reaches kids a b) ∧ l.foldlM f s = some s' := by
  induction n generalizing s s' a with
  | zero => cases h
  | succ n ih =>
    obtain ⟨s1, h1, h⟩ := Option.bind_eq_some_iff.mp h
    have hlist (ks : List α) : ∀ s s', ks.foldlM (traverse kids f n) s = some s' →
        ∃ l : List α, (∀ b, b ∈ l ↔ ∃ c ∈ ks, Reaches kids c b) ∧ l.foldlM f s = some s' := by
      induction ks with
      | nil => exact fun s s' h => ⟨[], by simp, h⟩
      | cons c ks ihk =>
        intro s s' h
        rw [List.foldlM_cons] at h
        obtain ⟨s2, h2, h⟩ := Option.bind_eq_some_iff.mp h
        obtain ⟨l1, hl1, hf1⟩ := ih h2
        obtain ⟨l2, hl2, hf2⟩ := ihk s2 s' h
        refine ⟨l1 ++ l2, fun b => ?_, ?_⟩
        · simp [List.mem_append, hl1, hl2]
        · rw [List.foldlM_append, hf1]
          exact hf2
    obtain ⟨l, hl, hf⟩ := hlist (kids a) s1 s' h
    refine ⟨a :: l, fun b => ?_, ?_⟩
    · rw [List.mem_cons, hl, reaches_iff_head, eq_comm]
    · rw [List.foldlM_cons, h1]
      exact hf

end Traverse
end Forest
