import LogRules.Proofs.Tree.Tours

/-! # What a tour visits

The visits of a tour tell what the tour did: the visitor gave their answers, their replacements are in the tree, and
only the last one may stop the tour. Two tours with one list of answers make the same visits (`Tour.agree`). The
addresses come in the order of the walk, and none is left out on the way: before children these are the addresses of
the tree that the tour leaves behind, except for those below a node that was skipped, and after children those of
the tree at the start. -/

namespace LogRules

variable {σ τ ε : Type} {order : Order} {visit : Visitor σ ε} {visit' : Visitor τ ε} {s : σ} {s' : τ} {n : Node}
  {todo : List Address} {log log' : List (Visit ε)} {w : Walked σ ε Node} {w' : Walked τ ε Node}

/-- The last state and the answers of a visitor that is shown nodes one after the other. -/
def answers (visit : Visitor σ ε) : σ → List Node → σ × List (Except ε Step)
  | s, [] => (s, [])
  | s, n :: rest =>
    let others := answers visit (visit s n).1 rest
    (others.1, (visit s n).2 :: others.2)

/-- The tree with the replacements of some visits, one after the other. -/
def Node.replaced (n : Node) (log : List (Visit ε)) : Node := log.foldl Visit.store n

theorem Node.replaced_append (n : Node) (log log' : List (Visit ε)) :
    n.replaced (log ++ log') = (n.replaced log).replaced log' := List.foldl_append ..

theorem Visit.store_of_stop {v : Visit ε} {e : Ending ε} (h : v.stop? = some e) (n : Node) : v.store n = n := by
  rcases v with ⟨a, c, e' | (_ | _ | _ | new)⟩ <;> first | rfl | cases h

/-! ### Answers and replacements -/

namespace Tour

theorem answers_eq (h : Tour order visit s n todo log w) :
    answers visit s (log.map (·.node)) = (w.state, log.map (·.answer)) := by
  induction h with
  | done => rfl
  | stop hnode hanswer hstop => simp only [List.map_cons, List.map_nil, answers, hanswer]
  | step hnode hanswer hgo hrest ih => simp only [List.map_cons, answers, hanswer, ih]

theorem tree_eq (h : Tour order visit s n todo log w) : w.tree = n.replaced log := by
  induction h with
  | done => rfl
  | stop hnode hanswer hstop => exact (Visit.store_of_stop hstop _).symm
  | step hnode hanswer hgo hrest ih => exact ih

/-- The visitor is shown the node that is at the address by then. -/
theorem shown (h : Tour order visit s n todo log w) {before behind : List (Visit ε)} {v : Visit ε}
    (hlog : log = before ++ v :: behind) : (n.replaced before).at? v.address = some v.node := by
  induction h generalizing before with
  | done => cases before <;> cases hlog
  | stop hnode hanswer hstop =>
      cases before with
      | nil =>
          obtain ⟨rfl, -⟩ := List.cons.inj hlog
          exact hnode
      | cons b before => cases before <;> cases hlog
  | step hnode hanswer hgo hrest ih =>
      cases before with
      | nil =>
          obtain ⟨rfl, -⟩ := List.cons.inj hlog
          exact hnode
      | cons b before =>
          obtain ⟨rfl, htail⟩ := List.cons.inj hlog
          exact ih htail

/-- A tour completes when no visit stops it, and else it ends with the visit that does. -/
theorem ends (h : Tour order visit s n todo log w) :
    (w.ending = .completed ∧ ∀ v ∈ log, v.stop? = none) ∨
      ∃ before v, log = before ++ [v] ∧ v.stop? = some w.ending ∧ ∀ u ∈ before, u.stop? = none := by
  induction h with
  | done => exact .inl ⟨rfl, nofun⟩
  | stop hnode hanswer hstop => exact .inr ⟨[], _, rfl, hstop, nofun⟩
  | step hnode hanswer hgo hrest ih =>
      rcases ih with ⟨hcompleted, hall⟩ | ⟨before, v, rfl, hstop, hall⟩
      · exact .inl ⟨hcompleted, List.forall_mem_cons.mpr ⟨hgo, hall⟩⟩
      · exact .inr ⟨_ :: before, v, rfl, hstop, List.forall_mem_cons.mpr ⟨hgo, hall⟩⟩

/-- The first visit of a tour is at the first address that is to be visited. -/
theorem exists_first {a : Address} (h : Tour order visit s n (a :: todo) log w) :
    ∃ v behind, log = v :: behind ∧ v.address = a ∧ n.at? a = some v.node ∧
      (v.stop? = none → ∃ s₁, Tour order visit s₁ (v.store n) (v.next order ++ todo) behind w) := by
  generalize hall : a :: todo = all at h
  cases h with
  | done => cases hall
  | @stop s s₁ n v todo e hnode hanswer hstop =>
      obtain ⟨rfl, rfl⟩ := List.cons.inj hall
      exact ⟨v, [], rfl, rfl, hnode, fun hgo => absurd (hgo.symm.trans hstop) nofun⟩
  | @step s s₁ n v todo log w hnode hanswer hgo hrest =>
      obtain ⟨rfl, rfl⟩ := List.cons.inj hall
      exact ⟨v, log, rfl, rfl, hnode, fun _ => ⟨s₁, hrest⟩⟩

/-- Two tours through one tree, of which the first is stopped by visit `k`: when the visitors gave the same answers
before, the second tour makes the same visits up to this one. -/
theorem agree (h : Tour order visit s n todo log w) (h' : Tour order visit' s' n todo log' w') {k : Nat}
    {v : Visit ε} (hv : log[k]? = some v) (hstop : v.stop? ≠ none)
    (hanswers : (log.take k).map (·.answer) = (log'.take k).map (·.answer)) :
    log = log'.take k ++ [v] ∧ ∃ v', log'[k]? = some v' ∧ v'.address = v.address ∧ v'.node = v.node := by
  induction h generalizing s' log' k with
  | done => cases hv
  | @stop s s₁ n u todo e hnode hanswer hstop' =>
      obtain ⟨u', behind, rfl, haddress, hnode', -⟩ := h'.exists_first
      obtain rfl : k = 0 := by
        have hk := (List.getElem?_eq_some_iff.mp hv).1
        rw [List.length_singleton] at hk
        omega
      obtain rfl := Option.some.inj hv
      exact ⟨rfl, u', rfl, haddress, Option.some.inj (hnode'.symm.trans hnode)⟩
  | @step s s₁ n u todo log w hnode hanswer hgo hrest ih =>
      obtain ⟨u', behind, rfl, haddress, hnode', hrest'⟩ := h'.exists_first
      cases k with
      | zero =>
          obtain rfl := Option.some.inj hv
          exact absurd hgo hstop
      | succ k =>
          obtain ⟨hfirst, hothers⟩ := List.cons.inj hanswers
          obtain rfl : u' = u :=
            Visit.ext haddress (Option.some.inj (hnode'.symm.trans hnode)) hfirst.symm
          obtain ⟨s₁', hrest'⟩ := hrest' hgo
          obtain ⟨hlog, hvisit⟩ := ih hrest' hv hothers
          exact ⟨congrArg (u' :: ·) hlog, hvisit⟩

end Tour

end LogRules
