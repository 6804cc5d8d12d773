import LogRules.Proofs.Tree.Labels
import LogRules.Tree.Walk
import Mathlib.Data.List.Infix

/-! # Addresses in a tree

An address is the way from the root of a tree to one of its nodes. A node can be put at an address; this changes
nothing at the addresses that are not behind it (`isSome_at?_put`). Two addresses either part, the one to the left
of the other, or one of them is on the way to the other. -/

namespace LogRules

/-- The numbers of the children on the way to a node. -/
abbrev Address := List Nat

/-! ### Nodes at addresses -/

namespace Node

/-- The node at an address. -/
def at? : Node → Address → Option Node
  | n, [] => some n
  | n, i :: a => n.children[i]?.bind fun c => at? c a

/-- The tree with a new node at an address. -/
def put : Node → Address → Node → Node
  | _, [], new => new
  | n, i :: a, new => n.withChildren (n.children.modify i fun c => put c a new)

theorem withChildren_withChildren (n : Node) (xs ys : List Node) :
    (n.withChildren xs).withChildren ys = n.withChildren ys := by
  cases n <;> rfl

theorem children_put (n : Node) (i : Nat) (a : Address) (new : Node) :
    (n.put (i :: a) new).children = n.children.modify i (·.put a new) :=
  children_withChildren (List.length_modify ..)

theorem at?_append (n : Node) (a b : Address) : n.at? (a ++ b) = (n.at? a).bind (·.at? b) := by
  induction a generalizing n with
  | nil => rfl
  | cons i a ih =>
      rw [List.cons_append, at?, at?, Option.bind_assoc]
      exact congrArg _ (funext ih)

/-- The children of a node have the next addresses. -/
theorem at?_child {n m : Node} {a : Address} (h : n.at? a = some m) (i : Nat) :
    n.at? (a ++ [i]) = m.children[i]? := by
  rw [at?_append, h]
  exact Option.bind_fun_some _

/-- Behind the address of a new node there are its own nodes. -/
theorem at?_put_append {n m : Node} {a : Address} (h : n.at? a = some m) (new : Node) (b : Address) :
    (n.put a new).at? (a ++ b) = new.at? b := by
  induction a generalizing n with
  | nil => rfl
  | cons i a ih =>
      obtain ⟨c, hc, hm⟩ := Option.bind_eq_some_iff.mp h
      rw [List.cons_append, at?, children_put, List.getElem?_modify_eq, hc]
      exact ih hm

theorem at?_put {n m : Node} {a : Address} (h : n.at? a = some m) (new : Node) :
    (n.put a new).at? a = some new := by
  have hput := at?_put_append h new []
  rwa [List.append_nil] at hput

theorem put_put (n : Node) (a : Address) (x y : Node) : (n.put a x).put a y = n.put a y := by
  induction a generalizing n with
  | nil => rfl
  | cons i a ih =>
      have hsame : (fun c : Node => c.put a y) ∘ (fun c : Node => c.put a x) = fun c : Node => c.put a y :=
        funext ih
      rw [put, children_put, List.modify_modify_eq, hsame, put, put, withChildren_withChildren]

/-- Edits of a child do the same when they do the same to that child. -/
theorem modify_congr {nodes : List Node} {i : Nat} {c : Node} (hc : nodes[i]? = some c) {f g : Node → Node}
    (h : f c = g c) : nodes.modify i f = nodes.modify i g := by
  refine List.ext_getElem? fun j => ?_
  rw [List.getElem?_modify, List.getElem?_modify]
  by_cases hij : i = j
  · subst hij
    rw [hc]
    simp [h]
  · simp [hij]

/-- Putting a node where it is changes nothing. -/
theorem put_self {n m : Node} {a : Address} (h : n.at? a = some m) : n.put a m = n := by
  induction a generalizing n with
  | nil => exact (Option.some.inj h).symm
  | cons i a ih =>
      obtain ⟨c, hc, hm⟩ := Option.bind_eq_some_iff.mp h
      have hmodify : n.children.modify i (·.put a m) = n.children.modify i id := modify_congr hc (ih hm)
      rw [put, hmodify, List.modify_id, withChildren_children]

/-- A node behind an address is put into the node at the address. -/
theorem put_append {n m : Node} {a : Address} (h : n.at? a = some m) (b : Address) (new : Node) :
    n.put (a ++ b) new = n.put a (m.put b new) := by
  induction a generalizing n with
  | nil =>
      obtain rfl := Option.some.inj h
      rfl
  | cons i a ih =>
      obtain ⟨c, hc, hm⟩ := Option.bind_eq_some_iff.mp h
      have hmodify : n.children.modify i (·.put (a ++ b) new) = n.children.modify i (·.put a (m.put b new)) :=
        modify_congr hc (ih hm)
      rw [List.cons_append, put, put, hmodify]

/-- A new node does not change which addresses there are, except for those behind its own. -/
theorem isSome_at?_put (n new : Node) {a b : Address} (h : ¬ a <+: b) :
    ((n.put a new).at? b).isSome = (n.at? b).isSome := by
  induction a generalizing n b with
  | nil => exact absurd List.nil_prefix h
  | cons i a ih =>
      cases b with
      | nil => rfl
      | cons j b =>
          rw [at?, children_put, at?, List.getElem?_modify]
          by_cases hij : i = j
          · subst hij
            have hab : ¬ a <+: b := fun hway => h (List.cons_prefix_cons.mpr ⟨rfl, hway⟩)
            cases n.children[i]? with
            | none => simp
            | some c => simpa using ih c hab
          · simp [hij]

end Node

/-! ### Places of addresses -/

namespace Address

/-- The ways part, and the first one goes to an earlier child. -/
def LeftOf : Address → Address → Prop
  | i :: a, j :: b => i < j ∨ i = j ∧ LeftOf a b
  | _, _ => False

theorem LeftOf.append {a b : Address} (h : LeftOf a b) (x y : Address) : LeftOf (a ++ x) (b ++ y) := by
  induction a generalizing b with
  | nil => cases h
  | cons i a ih =>
      cases b with
      | nil => cases h
      | cons j b => exact h.imp_right fun hab => ⟨hab.1, ih hab.2⟩

theorem LeftOf.behind {a b a' b' : Address} (h : LeftOf a b) (ha : a <+: a') (hb : b <+: b') : LeftOf a' b' := by
  obtain ⟨x, rfl⟩ := ha
  obtain ⟨y, rfl⟩ := hb
  exact h.append x y

theorem leftOf_append (a : Address) {b c : Address} (h : LeftOf b c) : LeftOf (a ++ b) (a ++ c) := by
  induction a with
  | nil => exact h
  | cons i a ih => exact .inr ⟨rfl, ih⟩

theorem leftOf_children (a : Address) {i j : Nat} (h : i < j) : LeftOf (a ++ [i]) (a ++ [j]) :=
  leftOf_append a (.inl h)

/-- Ways that part do not lead to each other. -/
theorem LeftOf.parts {a b : Address} (h : LeftOf a b) : ¬ a <+: b ∧ ¬ b <+: a := by
  induction a generalizing b with
  | nil => cases h
  | cons i a ih =>
      cases b with
      | nil => cases h
      | cons j b =>
          rw [List.cons_prefix_cons, List.cons_prefix_cons]
          rcases h with hlt | ⟨rfl, hab⟩
          · exact ⟨fun hway => by omega, fun hway => by omega⟩
          · exact ⟨fun hway => (ih hab).1 hway.2, fun hway => (ih hab).2 hway.2⟩

theorem LeftOf.asymm {a b : Address} (h : LeftOf a b) : ¬ LeftOf b a := by
  induction a generalizing b with
  | nil => cases h
  | cons i a ih =>
      cases b with
      | nil => cases h
      | cons j b =>
          rcases h with hlt | ⟨rfl, hab⟩
          · rintro (hgt | ⟨rfl, -⟩) <;> omega
          · rintro (hlt | ⟨-, hba⟩)
            · omega
            · exact ih hab hba

/-- The address is on the way to the other one. -/
def Above (a b : Address) : Prop := a <+: b ∧ a ≠ b

theorem Above.exists_child {a b : Address} (h : Above a b) : ∃ i, a ++ [i] <+: b := by
  obtain ⟨⟨x, rfl⟩, hne⟩ := h
  cases x with
  | nil => exact absurd (List.append_nil a).symm hne
  | cons i x => exact ⟨i, x, by rw [List.append_assoc]; rfl⟩

theorem above_of_child {a b : Address} {i : Nat} (h : a ++ [i] <+: b) : Above a b := by
  refine ⟨(List.prefix_append a [i]).trans h, ?_⟩
  rintro rfl
  have hlen := h.length_le
  rw [List.length_append, List.length_singleton] at hlen
  omega

theorem Above.asymm {a b : Address} (h : Above a b) : ¬ Above b a :=
  fun hba => h.2 (h.1.eq_of_length_le hba.1.length_le)

end Address

/-- A new node changes nothing at an address to the left or to the right of its own. -/
theorem Node.at?_put_of_leftOf (n new : Node) {a b : Address} (h : a.LeftOf b ∨ b.LeftOf a) :
    (n.put a new).at? b = n.at? b := by
  induction a generalizing n b with
  | nil => rcases h with h | h <;> cases b <;> cases h
  | cons i a ih =>
      cases b with
      | nil => rcases h with h | h <;> cases h
      | cons j b =>
          rw [at?, children_put, at?, List.getElem?_modify]
          by_cases hij : i = j
          · subst hij
            have hab : Address.LeftOf a b ∨ Address.LeftOf b a :=
              h.imp (fun h => h.elim (absurd · (lt_irrefl i)) (·.2)) fun h => h.elim (absurd · (lt_irrefl i)) (·.2)
            cases n.children[i]? with
            | none => simp
            | some c => simpa using ih c hab
          · simp [hij]

/-- A node comes before another one: it is to the left of it, or above it when nodes come before their
descendants, or below it when they come after them. -/
def Order.Before (order : Order) (a b : Address) : Prop :=
  a.LeftOf b ∨ match order with
    | .pre => a.Above b
    | .post => b.Above a

theorem Order.Before.asymm {order : Order} {a b : Address} (h : order.Before a b) : ¬ order.Before b a := by
  intro hba
  cases order with
  | pre =>
      rcases h with h | h <;> rcases hba with hba | hba
      · exact h.asymm hba
      · exact h.parts.2 hba.1
      · exact hba.parts.2 h.1
      · exact h.asymm hba
  | post =>
      rcases h with h | h <;> rcases hba with hba | hba
      · exact h.asymm hba
      · exact h.parts.1 hba.1
      · exact hba.parts.1 h.1
      · exact h.asymm hba

theorem Order.Before.not_below {a b : Address} (h : Order.pre.Before a b) : ¬ b <+: a := by
  rcases h with h | h
  · exact h.parts.2
  · exact fun hba => h.2 (h.1.eq_of_length_le hba.length_le)

/-- What comes between a node and its child is to the left of the child. -/
theorem Order.Before.leftOf_child {a b : Address} {j : Nat} (hab : Order.pre.Before a b)
    (hb : Order.pre.Before b (a ++ [j])) : b.LeftOf (a ++ [j]) := by
  rcases hb with hleft | ⟨hway, hne⟩
  · exact hleft
  · rcases List.prefix_concat_iff.mp hway with heq | hba
    · exact absurd heq hne
    · exact absurd hba hab.not_below

theorem Order.not_before_self (order : Order) (a : Address) : ¬ order.Before a a := fun h => h.asymm h

theorem Order.Before.ne {order : Order} {a b : Address} (h : order.Before a b) : a ≠ b := by
  rintro rfl
  exact h.asymm h

end LogRules
