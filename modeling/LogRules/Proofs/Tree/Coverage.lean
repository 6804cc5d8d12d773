import LogRules.Proofs.Tree.Visits
import Mathlib.Data.List.Nodup
import Mathlib.Data.List.Range

/-! # Which addresses a tour visits

The addresses of a tour come in the order of the walk. Before children they are all behind the addresses that were
to be visited, and these always part (`Tour.covered`, `parted_next`), so the visits to come change nothing at the
address of an earlier one but what is below it. After children the addresses to be visited are all there are from
the start (`Tour.addresses_post`). -/

namespace LogRules

open Address

variable {σ ε : Type} {order : Order} {visit : Visitor σ ε} {s : σ} {n : Node} {todo : List Address}
  {log : List (Visit ε)} {w : Walked σ ε Node}

/-- A walk got to the address: it completed, or it made a visit there or further on. -/
def Reached {α : Type} (order : Order) (w : Walked σ ε α) (log : List (Visit ε)) (a : Address) : Prop :=
  w.ending = .completed ∨ ∃ u ∈ log, a = u.address ∨ order.Before a u.address

/-- The address is below a visit that skips its descendants. -/
def BelowSkip (log : List (Visit ε)) (a : Address) : Prop :=
  ∃ u ∈ log, u.answer = .ok .skip ∧ Above u.address a

theorem BelowSkip.cons {a : Address} (h : BelowSkip log a) (v : Visit ε) : BelowSkip (v :: log) a := by
  obtain ⟨u, hu, hskip⟩ := h
  exact ⟨u, List.mem_cons_of_mem _ hu, hskip⟩

/-- A walk that got to an address got there with the visits behind those that do not come later. -/
theorem Reached.of_cons {v : Visit ε} {a : Address} (h : Reached order w (v :: log) a) (hself : a ≠ v.address)
    (hbefore : ¬ order.Before a v.address) : Reached order w log a := by
  refine h.imp_right ?_
  rintro ⟨u, hu, hlater⟩
  rcases List.mem_cons.mp hu with rfl | hu
  · exact absurd hlater (not_or_intro hself hbefore)
  · exact ⟨u, hu, hlater⟩

theorem Visit.stop?_ne_completed (v : Visit ε) : v.stop? ≠ some .completed := by
  rcases v with ⟨a, c, e | (_ | _ | _ | new)⟩ <;> nofun

/-! ### Replacements at other addresses -/

theorem Visit.isSome_at?_store (v : Visit ε) (n : Node) {a : Address} (h : ¬ v.address <+: a) :
    ((v.store n).at? a).isSome = (n.at? a).isSome := by
  rcases v with ⟨b, c, e | (_ | _ | _ | new)⟩
  case ok.replace => exact Node.isSome_at?_put n new h
  all_goals rfl

theorem Visit.at?_store (v : Visit ε) (n : Node) {a : Address} (h : v.address.LeftOf a ∨ LeftOf a v.address) :
    (v.store n).at? a = n.at? a := by
  rcases v with ⟨b, c, e | (_ | _ | _ | new)⟩
  case ok.replace => exact Node.at?_put_of_leftOf n new h
  all_goals rfl

theorem Visit.isSome_at?_store_self {v : Visit ε} (hnode : n.at? v.address = some v.node) :
    ((v.store n).at? v.address).isSome := by
  rcases v with ⟨a, c, e | (_ | _ | _ | new)⟩
  case ok.replace => exact Option.isSome_of_mem (Node.at?_put hnode new)
  all_goals exact Option.isSome_of_mem hnode

theorem Node.isSome_at?_replaced (n : Node) {a : Address} (h : ∀ u ∈ log, ¬ u.address <+: a) :
    ((n.replaced log).at? a).isSome = (n.at? a).isSome := by
  induction log generalizing n with
  | nil => rfl
  | cons v log ih =>
      obtain ⟨hv, hlog⟩ := List.forall_mem_cons.mp h
      exact (ih (v.store n) hlog).trans (v.isSome_at?_store n hv)

theorem Node.at?_replaced (n : Node) {a : Address}
    (h : ∀ u ∈ log, u.address.LeftOf a ∨ LeftOf a u.address) : (n.replaced log).at? a = n.at? a := by
  induction log generalizing n with
  | nil => rfl
  | cons v log ih =>
      obtain ⟨hv, hlog⟩ := List.forall_mem_cons.mp h
      exact (ih (v.store n) hlog).trans (v.at?_store n hv)

/-! ### Before children -/

/-- The address is one of these, or behind one of them. -/
def Covered (todo : List Address) (a : Address) : Prop := ∃ r ∈ todo, r <+: a

theorem Order.agendaAll_pre (nodes : List Node) (a : Address) (i : Nat) :
    Order.pre.agendaAll nodes a i = (List.range' i nodes.length).map fun j => a ++ [j] := by
  induction nodes generalizing i with
  | nil => rfl
  | cons c nodes ih =>
      rw [Order.agendaAll, ih, List.length_cons, List.range'_succ, List.map_cons]
      rfl

theorem Order.mem_agendaAll_pre {nodes : List Node} {a r : Address} :
    r ∈ Order.pre.agendaAll nodes a 0 ↔ ∃ j < nodes.length, r = a ++ [j] := by
  rw [agendaAll_pre, List.mem_map]
  constructor
  · rintro ⟨j, hj, rfl⟩
    exact ⟨j, by simpa using hj, rfl⟩
  · rintro ⟨j, hj, rfl⟩
    exact ⟨j, by simpa using hj, rfl⟩

theorem Order.parted_agendaAll_pre (nodes : List Node) (a : Address) (i : Nat) :
    (Order.pre.agendaAll nodes a i).Pairwise LeftOf := by
  rw [agendaAll_pre, List.pairwise_map]
  exact (List.pairwise_lt_range' ..).imp fun h => leftOf_children a h

theorem Visit.eq_child_of_mem_next {v : Visit ε} {r : Address} (h : r ∈ v.next .pre) : ∃ j, r = v.address ++ [j] := by
  have hchild : ∀ nodes : List Node, r ∈ Order.pre.agendaAll nodes v.address 0 → ∃ j, r = v.address ++ [j] := by
    intro nodes hr
    obtain ⟨j, -, heq⟩ := Order.mem_agendaAll_pre.mp hr
    exact ⟨j, heq⟩
  rcases v with ⟨a, c, e | (_ | _ | _ | new)⟩
  case ok.proceed => exact hchild _ h
  case ok.replace => exact hchild _ h
  all_goals cases h

theorem Visit.parted_next (v : Visit ε) : (v.next .pre).Pairwise LeftOf := by
  rcases v with ⟨a, c, e | (_ | _ | _ | new)⟩
  case ok.proceed => exact Order.parted_agendaAll_pre ..
  case ok.replace => exact Order.parted_agendaAll_pre ..
  all_goals exact .nil

/-- A visit that does not leave out the descendants goes on with the children that are there by then. -/
theorem Visit.exists_next {v : Visit ε} (hnode : n.at? v.address = some v.node) (hgo : v.stop? = none)
    (hskip : v.answer ≠ .ok .skip) : ∃ m, (v.store n).at? v.address = some m ∧
      v.next .pre = Order.pre.agendaAll m.children v.address 0 := by
  rcases v with ⟨a, c, e | (_ | _ | _ | new)⟩
  case ok.proceed => exact ⟨c, hnode, rfl⟩
  case ok.replace => exact ⟨new, Node.at?_put hnode new, rfl⟩
  case ok.skip => exact absurd rfl hskip
  all_goals cases hgo

theorem Visit.next_of_skip {v : Visit ε} (h : v.answer = .ok .skip) : v.next .pre = [] := by
  obtain ⟨a, c, answer⟩ := v
  obtain rfl := h
  rfl

/-- The addresses below such a visit are all to be visited. -/
theorem Visit.covered_of_above {v : Visit ε} (hnode : n.at? v.address = some v.node) (hgo : v.stop? = none)
    (hskip : v.answer ≠ .ok .skip) {a : Address} (ha : v.address.Above a) (hat : ((v.store n).at? a).isSome) :
    Covered (v.next .pre) a := by
  obtain ⟨m, hm, hnext⟩ := Visit.exists_next hnode hgo hskip
  obtain ⟨j, hj⟩ := ha.exists_child
  have hchild : j < m.children.length := by
    obtain ⟨x, rfl⟩ := hj
    rw [Node.at?_append, Node.at?_child hm] at hat
    simpa using Option.isSome_of_isSome_bind hat
  exact ⟨v.address ++ [j], hnext ▸ Order.mem_agendaAll_pre.mpr ⟨j, hchild, rfl⟩, hj⟩

/-- What is to be visited behind a visit is below it or was to be visited before. -/
theorem covered_next {v : Visit ε} {a : Address} (h : Covered (v.next .pre ++ todo) a) :
    v.address.Above a ∨ Covered todo a := by
  obtain ⟨r, hr, hra⟩ := h
  rcases List.mem_append.mp hr with hr | hr
  · obtain ⟨j, rfl⟩ := Visit.eq_child_of_mem_next hr
    exact .inl (above_of_child hra)
  · exact .inr ⟨r, hr, hra⟩

/-- What is to be visited parts from the address of the next visit, or is below it. -/
theorem parted_next {v : Visit ε} (h : (v.address :: todo).Pairwise LeftOf) :
    (v.next .pre ++ todo).Pairwise LeftOf := by
  obtain ⟨hv, htodo⟩ := List.pairwise_cons.mp h
  refine List.pairwise_append.mpr ⟨v.parted_next, htodo, fun r hr q hq => ?_⟩
  obtain ⟨j, rfl⟩ := Visit.eq_child_of_mem_next hr
  exact (hv q hq).behind (List.prefix_append ..) List.prefix_rfl

theorem leftOf_of_covered {r a : Address} (h : (r :: todo).Pairwise LeftOf) (ha : Covered todo a) : r.LeftOf a := by
  obtain ⟨q, hq, hqa⟩ := ha
  exact ((List.pairwise_cons.mp h).1 q hq).behind List.prefix_rfl hqa

/-- What comes behind a visit comes later in the order. -/
theorem before_of_covered {v : Visit ε} {a : Address} (h : (v.address :: todo).Pairwise LeftOf)
    (ha : Covered (v.next .pre ++ todo) a) : Order.pre.Before v.address a := by
  rcases covered_next ha with habove | htodo
  · exact .inr habove
  · exact .inl (leftOf_of_covered h htodo)

/-- What is to be visited does not come before the next visit. -/
theorem not_before_of_covered {r a : Address} (h : (r :: todo).Pairwise LeftOf) (ha : Covered (r :: todo) a) :
    ¬ Order.pre.Before a r := by
  obtain ⟨q, hq, hqa⟩ := ha
  rcases List.mem_cons.mp hq with rfl | hq
  · by_cases heq : q = a
    · exact heq ▸ Order.not_before_self .pre q
    · exact fun hbefore => hbefore.asymm (.inr ⟨hqa, heq⟩)
  · exact fun hbefore => hbefore.asymm (.inl (leftOf_of_covered h ⟨q, hq, hqa⟩))

namespace Tour

theorem covered (h : Tour .pre visit s n todo log w) : ∀ u ∈ log, Covered todo u.address := by
  induction h with
  | done => exact nofun
  | @stop s s₁ n v todo e => exact List.forall_mem_singleton.mpr ⟨v.address, List.mem_cons_self, List.prefix_rfl⟩
  | @step s s₁ n v todo log w hnode hanswer hgo hrest ih =>
      refine List.forall_mem_cons.mpr ⟨⟨v.address, List.mem_cons_self, List.prefix_rfl⟩, fun u hu => ?_⟩
      rcases covered_next (ih u hu) with habove | ⟨r, hr, hru⟩
      · exact ⟨v.address, List.mem_cons_self, habove.1⟩
      · exact ⟨r, List.mem_cons_of_mem _ hr, hru⟩

/-- The visits before children come in order. -/
theorem ordered_pre (h : Tour .pre visit s n todo log w) (hparted : todo.Pairwise LeftOf) :
    (log.map (·.address)).Pairwise Order.pre.Before := by
  induction h with
  | done => exact .nil
  | stop => exact List.pairwise_singleton ..
  | @step s s₁ n v todo log w hnode hanswer hgo hrest ih =>
      refine List.pairwise_cons.mpr ⟨fun a ha => ?_, ih (parted_next hparted)⟩
      obtain ⟨u, hu, rfl⟩ := List.mem_map.mp ha
      exact before_of_covered hparted (hrest.covered u hu)

/-- No visit is below a node that was skipped. -/
theorem not_belowSkip (h : Tour .pre visit s n todo log w) (hparted : todo.Pairwise LeftOf) :
    ∀ u ∈ log, ¬ BelowSkip log u.address := by
  induction h with
  | done => exact nofun
  | @stop s s₁ n v todo e =>
      refine List.forall_mem_singleton.mpr ?_
      rintro ⟨x, hx, -, habove⟩
      obtain rfl := List.mem_singleton.mp hx
      exact habove.2 rfl
  | @step s s₁ n v todo log w hnode hanswer hgo hrest ih =>
      have hlater : ∀ x ∈ log, Order.pre.Before v.address x.address :=
        fun x hx => before_of_covered hparted (hrest.covered x hx)
      refine List.forall_mem_cons.mpr ⟨?_, fun u hu => ?_⟩
      · rintro ⟨x, hx, -, habove⟩
        rcases List.mem_cons.mp hx with rfl | hx
        · exact habove.2 rfl
        · exact (hlater x hx).asymm (.inr habove)
      · rintro ⟨x, hx, hskip, habove⟩
        rcases List.mem_cons.mp hx with rfl | hx
        · -- behind a skip nothing below it is to be visited
          have hcovered := hrest.covered u hu
          rw [Visit.next_of_skip hskip, List.nil_append] at hcovered
          exact (leftOf_of_covered hparted hcovered).parts.1 habove.1
        · exact ih (parted_next hparted) u hu ⟨x, hx, hskip, habove⟩

/-- The tour does not change which addresses there are apart from what is to be visited. -/
theorem isSome_at?_of_not_covered (h : Tour .pre visit s n todo log w) {a : Address} (ha : ¬ Covered todo a) :
    (w.tree.at? a).isSome = (n.at? a).isSome := by
  rw [h.tree_eq]
  refine n.isSome_at?_replaced fun u hu hway => ha ?_
  obtain ⟨r, hr, hru⟩ := h.covered u hu
  exact ⟨r, hr, hru.trans hway⟩

/-- Every address that the walk got to was visited, unless it is below a node that was skipped. -/
theorem exists_visit_pre (h : Tour .pre visit s n todo log w) (hparted : todo.Pairwise LeftOf) {a : Address}
    (ha : Covered todo a) (hat : (w.tree.at? a).isSome) (hskip : ¬ BelowSkip log a)
    (hreached : Reached .pre w log a) : ∃ u ∈ log, u.address = a := by
  induction h with
  | done =>
      obtain ⟨r, hr, -⟩ := ha
      cases hr
  | @stop s s₁ n v todo e hnode hanswer hstop =>
      rcases hreached with hcompleted | ⟨u, hu, heq | hbefore⟩
      · exact absurd (hstop.trans (congrArg some hcompleted)) v.stop?_ne_completed
      · exact ⟨u, hu, heq.symm⟩
      · obtain rfl := List.mem_singleton.mp hu
        exact absurd hbefore (not_before_of_covered hparted ha)
  | @step s s₁ n v todo log w hnode hanswer hgo hrest ih =>
      by_cases hself : a = v.address
      · exact ⟨v, List.mem_cons_self, hself.symm⟩
      have hreached' := hreached.of_cons hself (not_before_of_covered hparted ha)
      have hskip' : ¬ BelowSkip log a := fun hbelow => hskip (hbelow.cons v)
      have ha' : Covered (v.next .pre ++ todo) a := by
        obtain ⟨r, hr, hra⟩ := ha
        rcases List.mem_cons.mp hr with rfl | hr
        · have habove : v.address.Above a := ⟨hra, Ne.symm hself⟩
          have hnoskip : v.answer ≠ .ok .skip := fun hv => hskip ⟨v, List.mem_cons_self, hv, habove⟩
          by_contra hnot
          rw [hrest.isSome_at?_of_not_covered hnot] at hat
          obtain ⟨q, hq, hqa⟩ := Visit.covered_of_above hnode hgo hnoskip habove hat
          exact hnot ⟨q, List.mem_append_left _ hq, hqa⟩
        · exact ⟨r, List.mem_append_right _ hr, hra⟩
      obtain ⟨u, hu, rfl⟩ := ih (parted_next hparted) ha' hat hskip' hreached'
      exact ⟨u, List.mem_cons_of_mem _ hu, rfl⟩

section Split

variable {before behind : List (Visit ε)} {v : Visit ε}

theorem tree_split (h : Tour order visit s n todo log w) (hlog : log = before ++ v :: behind) :
    w.tree = (v.store (n.replaced before)).replaced behind := by
  rw [h.tree_eq, hlog, Node.replaced_append]
  rfl

theorem ordered_split (h : Tour .pre visit s n todo log w) (hparted : todo.Pairwise LeftOf)
    (hlog : log = before ++ v :: behind) : (∀ u ∈ before, Order.pre.Before u.address v.address) ∧
      ∀ u ∈ behind, Order.pre.Before v.address u.address := by
  have hordered := List.pairwise_map.mp (h.ordered_pre hparted)
  rw [hlog, List.pairwise_append, List.pairwise_cons] at hordered
  exact ⟨fun u hu => hordered.2.2 u hu v List.mem_cons_self, hordered.2.1.1⟩

/-- Visits below a node come behind its own. -/
theorem mem_behind (h : Tour .pre visit s n todo log w) (hparted : todo.Pairwise LeftOf)
    (hlog : log = before ++ v :: behind) {u : Visit ε} (hu : u ∈ log) (habove : v.address.Above u.address) :
    u ∈ behind := by
  rw [hlog, List.mem_append, List.mem_cons] at hu
  rcases hu with hu | rfl | hu
  · exact absurd (.inr habove) ((h.ordered_split hparted hlog).1 u hu).asymm
  · exact absurd rfl habove.2
  · exact hu

end Split

/-- The places of the visits are still there when the tour ends. -/
theorem isSome_at? (h : Tour .pre visit s n todo log w) (hparted : todo.Pairwise LeftOf) {v : Visit ε}
    (hv : v ∈ log) : (w.tree.at? v.address).isSome := by
  obtain ⟨before, behind, hlog⟩ := List.append_of_mem hv
  rw [h.tree_split hlog,
    Node.isSome_at?_replaced _ fun u hu => ((h.ordered_split hparted hlog).2 u hu).not_below]
  exact Visit.isSome_at?_store_self (h.shown hlog)

theorem eq_of_address (h : Tour .pre visit s n todo log w) (hparted : todo.Pairwise LeftOf) {u v : Visit ε}
    (hu : u ∈ log) (hv : v ∈ log) (heq : u.address = v.address) : u = v := by
  have hnodup : (log.map (·.address)).Nodup := (h.ordered_pre hparted).imp Order.Before.ne
  exact List.inj_on_of_nodup_map hnodup hu hv heq

section Replacements

variable {u v : Visit ε} {new : Node} {j : Nat}

/-- A child of a replacement is shown as it is in the replacement. -/
theorem child_of_replacement (h : Tour .pre visit s n todo log w) (hparted : todo.Pairwise LeftOf) (hv : v ∈ log)
    (hreplace : v.answer = .ok (.replace new)) (hu : u ∈ log) (haddress : u.address = v.address ++ [j]) :
    new.children[j]? = some u.node := by
  obtain ⟨before, rest, hlog⟩ := List.append_of_mem hv
  have habove : v.address.Above u.address := haddress ▸ above_of_child List.prefix_rfl
  obtain ⟨between, behind, rfl⟩ := List.append_of_mem (h.mem_behind hparted hlog hu habove)
  have hlog' : log = (before ++ v :: between) ++ u :: behind := by rw [hlog, List.append_assoc, List.cons_append]
  have hshown := h.shown hlog'
  rw [Node.replaced_append] at hshown
  -- the visits in between are to the left of the child
  have hleft : ∀ m ∈ between, m.address.LeftOf u.address := by
    intro m hm
    have hvm := (h.ordered_split hparted hlog).2 m (List.mem_append_left _ hm)
    have hmu := (h.ordered_split hparted hlog').1 m (List.mem_append_right _ (List.mem_cons_of_mem _ hm))
    rw [haddress] at hmu ⊢
    exact hvm.leftOf_child hmu
  have hbetween := Node.at?_replaced (v.store (n.replaced before)) fun m hm => .inl (hleft m hm)
  have hstore : v.store (n.replaced before) = (n.replaced before).put v.address new := by
    rw [Visit.store, hreplace]
  have hput := Node.at?_put_append (h.shown hlog) new [j]
  rw [← haddress, ← hstore, ← hbetween] at hput
  exact (Option.bind_fun_some _).symm.trans (hput.symm.trans hshown)

/-- A replacement goes on with every child of the new node. -/
theorem exists_child_of_replacement (h : Tour .pre visit s n todo log w) (hparted : todo.Pairwise LeftOf)
    (hv : v ∈ log) (hreplace : v.answer = .ok (.replace new)) (hj : j < new.children.length)
    (hreached : Reached .pre w log (v.address ++ [j])) : ∃ u ∈ log, u.address = v.address ++ [j] := by
  obtain ⟨before, behind, hlog⟩ := List.append_of_mem hv
  have hlater := (h.ordered_split hparted hlog).2
  by_cases hvisited : ∃ u ∈ behind, u.address <+: v.address ++ [j]
  · obtain ⟨u, hu, hway⟩ := hvisited
    rcases List.prefix_concat_iff.mp hway with heq | hback
    · exact ⟨u, hlog ▸ List.mem_append_right _ (List.mem_cons_of_mem _ hu), heq⟩
    · exact absurd hback (hlater u hu).not_below
  · -- no visit changes the place of the child, so it is there when the tour ends
    have hat : (w.tree.at? (v.address ++ [j])).isSome := by
      have hstore : v.store (n.replaced before) = (n.replaced before).put v.address new := by
        rw [Visit.store, hreplace]
      rw [h.tree_split hlog, Node.isSome_at?_replaced _ fun u hu hway => hvisited ⟨u, hu, hway⟩, hstore,
        Node.at?_put_append (h.shown hlog)]
      simp [Node.at?, hj]
    have hskip : ¬ BelowSkip log (v.address ++ [j]) := by
      rintro ⟨u, hu, hskip, hway, hne⟩
      rcases List.prefix_concat_iff.mp hway with heq | hback
      · exact hne heq
      · by_cases hself : u.address = v.address
        · obtain rfl := h.eq_of_address hparted hu hv hself
          cases hskip.symm.trans hreplace
        · exact h.not_belowSkip hparted v hv ⟨u, hu, hskip, hback, hself⟩
    obtain ⟨r, hr, hrv⟩ := h.covered v hv
    exact h.exists_visit_pre hparted ⟨r, hr, hrv.trans (List.prefix_append ..)⟩ hat hskip hreached

end Replacements

end Tour

/-! ### After children -/

namespace Node

/-- The addresses of a tree, and those of several trees that stand side by side. -/
theorem mem_postorder : (∀ (n : Node) (a b : Address), b ∈ n.postorder a ↔ ∃ c, b = a ++ c ∧ (n.at? c).isSome) ∧
    ∀ (nodes : List Node) (a : Address) (i : Nat) (b : Address), b ∈ postorderAll nodes a i ↔
      ∃ j c, b = a ++ (i + j) :: c ∧ (nodes[j]?.bind (·.at? c)).isSome := by
  refine forest_induction ?_ ?_ ?_
  · intro n hall a b
    rw [postorder_eq, List.mem_append, hall, List.mem_singleton]
    constructor
    · rintro (⟨j, c, rfl, hc⟩ | rfl)
      · exact ⟨j :: c, by rw [Nat.zero_add], hc⟩
      · exact ⟨[], (List.append_nil _).symm, rfl⟩
    · rintro ⟨c, rfl, hc⟩
      cases c with
      | nil => exact .inr (List.append_nil a)
      | cons j c => exact .inl ⟨j, c, by rw [Nat.zero_add], hc⟩
  · intro a i b
    simp [postorderAll]
  · intro n rest hn hrest a i b
    rw [postorderAll, List.mem_append, hn, hrest]
    constructor
    · rintro (⟨c, rfl, hc⟩ | ⟨j, c, rfl, hc⟩)
      · exact ⟨0, c, by rw [List.append_assoc]; rfl, hc⟩
      · exact ⟨j + 1, c, by rw [Nat.add_right_comm]; rfl, hc⟩
    · rintro ⟨j, c, rfl, hc⟩
      cases j with
      | zero => exact .inl ⟨c, by rw [List.append_assoc]; rfl, hc⟩
      | succ j => exact .inr ⟨j, c, by rw [Nat.add_right_comm]; rfl, hc⟩

/-- The addresses of trees come in the order of a walk after children. -/
theorem ordered_postorder : (∀ (n : Node) (a : Address), (n.postorder a).Pairwise Order.post.Before) ∧
    ∀ (nodes : List Node) (a : Address) (i : Nat), (postorderAll nodes a i).Pairwise Order.post.Before := by
  refine forest_induction ?_ (fun a i => .nil) ?_
  · intro n hall a
    rw [postorder_eq]
    refine List.pairwise_append.mpr ⟨hall a 0, List.pairwise_singleton .., fun b hb c hc => ?_⟩
    obtain rfl := List.mem_singleton.mp hc
    obtain ⟨j, x, rfl, -⟩ := (mem_postorder.2 ..).mp hb
    exact .inr (above_of_child (i := 0 + j) ⟨x, by rw [List.append_assoc]; rfl⟩)
  · intro n rest hn hrest a i
    rw [postorderAll]
    refine List.pairwise_append.mpr ⟨hn _, hrest a (i + 1), fun b hb c hc => ?_⟩
    obtain ⟨x, rfl, -⟩ := (mem_postorder.1 ..).mp hb
    obtain ⟨j, y, rfl, -⟩ := (mem_postorder.2 ..).mp hc
    rw [List.append_assoc]
    exact .inl (leftOf_append a (.inl (by omega)))

end Node

theorem Visit.next_post (v : Visit ε) : v.next .post = [] := by
  rcases v with ⟨a, c, e | (_ | _ | _ | new)⟩ <;> rfl

namespace Tour

/-- After children the addresses are visited one after the other. -/
theorem addresses_post (h : Tour .post visit s n todo log w) :
    log.map (·.address) <+: todo ∧ (w.ending = .completed → log.map (·.address) = todo) := by
  induction h with
  | done => exact ⟨List.nil_prefix, fun _ => rfl⟩
  | @stop s s₁ n v todo e hnode hanswer hstop =>
      refine ⟨⟨todo, rfl⟩, fun hcompleted => ?_⟩
      exact absurd (hstop.trans (congrArg some hcompleted)) v.stop?_ne_completed
  | @step s s₁ n v todo log w hnode hanswer hgo hrest ih =>
      rw [v.next_post, List.nil_append] at ih
      exact ⟨List.cons_prefix_cons.mpr ⟨rfl, ih.1⟩, fun hcompleted => congrArg (v.address :: ·) (ih.2 hcompleted)⟩

theorem exists_visit_post (h : Tour .post visit s n todo log w) (hordered : todo.Pairwise Order.post.Before)
    {a : Address} (ha : a ∈ todo) (hreached : Reached .post w log a) : ∃ u ∈ log, u.address = a := by
  obtain ⟨⟨rest, hrest⟩, hall⟩ := h.addresses_post
  rcases hreached with hcompleted | ⟨u, hu, rfl | hbefore⟩
  · rw [← hall hcompleted] at ha
    exact List.mem_map.mp ha
  · exact ⟨u, hu, rfl⟩
  · rw [← hrest, List.mem_append] at ha
    rw [← hrest] at hordered
    rcases ha with ha | ha
    · exact List.mem_map.mp ha
    · have hlater := (List.pairwise_append.mp hordered).2.2 _ (List.mem_map_of_mem hu) a ha
      exact absurd hbefore hlater.asymm

end Tour

end LogRules
