import LogRules.Proofs.Tree.Walking

/-! # The bound on the depth of a walk

A walk that does not reach its bound is the same walk under every larger bound (`RuleTree.walk_of_le`). The number of
nodes is a bound that no walk after children reaches, and no walk of a visitor that replaces nothing
(`RuleTree.walk_ends`). -/

namespace LogRules

variable {σ ε : Type} {order : Order} {visit : Visitor σ ε} {depth depth' : Nat}

/-! ### Larger bounds -/

theorem walkList_congr {step step' : σ → Node → Walked σ ε Node}
    (hstep : ∀ s c, (step s c).ending ≠ .exhausted → step' s c = step s c) (nodes : List Node) (s : σ)
    (h : (Node.walkList step s nodes).ending ≠ .exhausted) :
    Node.walkList step' s nodes = Node.walkList step s nodes := by
  induction nodes generalizing s with
  | nil => rfl
  | cons c nodes ih =>
      by_cases hcompleted : (step s c).ending = .completed
      · have hfirst : step' s c = step s c := hstep s c (hcompleted ▸ nofun)
        rw [walkList_completed hcompleted] at h ⊢
        rw [walkList_completed (hfirst ▸ hcompleted), hfirst, ih _ h]
      · rw [walkList_stopped hcompleted] at h ⊢
        have hfirst := hstep s c h
        rw [walkList_stopped (hfirst ▸ hcompleted), hfirst]

theorem walkChildren_congr {step step' : σ → Node → Walked σ ε Node}
    (hstep : ∀ s c, (step s c).ending ≠ .exhausted → step' s c = step s c) (s : σ) (n : Node)
    (h : (Node.walkChildren step s n).ending ≠ .exhausted) :
    Node.walkChildren step' s n = Node.walkChildren step s n :=
  congrArg (Walked.map n.withChildren) (walkList_congr hstep n.children s h)

theorem walkPre_succ (visit : Visitor σ ε) (depth : Nat) : ∀ s n,
    (Node.walkPre visit depth s n).ending ≠ .exhausted →
      Node.walkPre visit (depth + 1) s n = Node.walkPre visit depth s n := by
  induction depth with
  | zero => exact fun s n h => absurd rfl h
  | succ depth ih =>
      intro s n h
      rcases hanswer : visit s n with ⟨s', answer⟩
      rw [Node.walkPre, hanswer] at h
      rw [Node.walkPre, Node.walkPre, hanswer]
      rcases answer with e | (_ | _ | _ | new)
      case ok.proceed => exact walkChildren_congr ih s' n h
      case ok.replace => exact walkChildren_congr ih s' new h
      all_goals rfl

theorem walkPost_succ (visit : Visitor σ ε) (depth : Nat) : ∀ s n,
    (Node.walkPost visit depth s n).ending ≠ .exhausted →
      Node.walkPost visit (depth + 1) s n = Node.walkPost visit depth s n := by
  induction depth with
  | zero => exact fun s n h => absurd rfl h
  | succ depth ih =>
      intro s n h
      have hbelow : (Node.walkChildren (Node.walkPost visit depth) s n).ending ≠ .exhausted := by
        intro hexhausted
        rw [Node.walkPost, hexhausted] at h
        exact h hexhausted
      rw [Node.walkPost, Node.walkPost, walkChildren_congr ih s n hbelow]

theorem walk_succ (order : Order) (visit : Visitor σ ε) (depth : Nat) (s : σ) (n : Node)
    (h : (n.walk order visit depth s).ending ≠ .exhausted) :
    n.walk order visit (depth + 1) s = n.walk order visit depth s := by
  cases order with
  | pre => exact walkPre_succ visit depth s n h
  | post => exact walkPost_succ visit depth s n h

/-! ### Sufficient bounds -/

theorem walkList_ends {step : σ → Node → Walked σ ε Node} {nodes : List Node}
    (h : ∀ c ∈ nodes, ∀ s, (step s c).ending ≠ .exhausted) (s : σ) :
    (Node.walkList step s nodes).ending ≠ .exhausted := by
  induction nodes generalizing s with
  | nil => exact nofun
  | cons c nodes ih =>
      obtain ⟨hc, hnodes⟩ := List.forall_mem_cons.mp h
      by_cases hcompleted : (step s c).ending = .completed
      · rw [walkList_completed hcompleted]
        exact ih hnodes _
      · rw [walkList_stopped hcompleted]
        exact hc s

/-- The children of a node have a smaller bound. -/
theorem walkChildren_ends {step : σ → Node → Walked σ ε Node} {n : Node}
    (hstep : ∀ c : Node, c.count ≤ depth → ∀ s, (step s c).ending ≠ .exhausted) (h : n.count ≤ depth + 1) (s : σ) :
    (Node.walkChildren step s n).ending ≠ .exhausted := by
  refine walkList_ends (fun c hc => hstep c ?_) s
  rw [Node.count_eq] at h
  exact (Node.countAll_le_of_mem hc).trans (Nat.le_of_succ_le_succ h)

theorem walkPre_ends (hreplace : ∀ s n new, (visit s n).2 ≠ .ok (.replace new)) (n : Node) (h : n.count ≤ depth)
    (s : σ) : (Node.walkPre visit depth s n).ending ≠ .exhausted := by
  induction depth generalizing n s with
  | zero =>
      rw [Node.count_eq] at h
      cases h
  | succ depth ih =>
      rw [Node.walkPre]
      rcases hanswer : visit s n with ⟨s', e | (_ | _ | _ | new)⟩
      case ok.proceed => exact walkChildren_ends ih h s'
      case ok.replace => exact absurd (congrArg Prod.snd hanswer) (hreplace s n new)
      all_goals rintro ⟨⟩

theorem walkPost_ends (n : Node) (h : n.count ≤ depth) (s : σ) :
    (Node.walkPost visit depth s n).ending ≠ .exhausted := by
  induction depth generalizing n s with
  | zero =>
      rw [Node.count_eq] at h
      cases h
  | succ depth ih =>
      have hbelow := walkChildren_ends ih h s
      rw [Node.walkPost]
      generalize Node.walkChildren (Node.walkPost visit depth) s n = below at hbelow ⊢
      cases hending : below.ending with
      | completed =>
          rcases visit below.state below.tree with ⟨s', e | (_ | _ | _ | new)⟩ <;> rintro ⟨⟩
      | exhausted => exact absurd hending hbelow
      | _ => exact hbelow

namespace RuleTree

/-- A walk of a rule tree ends as that of its trees. -/
theorem ending_walk (order : Order) (visit : Visitor σ ε) (depth : Nat) (s : σ) (t : RuleTree) :
    (t.walk order visit depth s).ending = (Node.walkList (Node.walk order visit depth) s t.trees).ending :=
  congrArg Walked.ending (forest_walk order visit depth s t)

theorem eq_of_map {w w' : Walked σ ε RuleTree} (hmap : w.map forest = w'.map forest)
    (hframe : w.tree.frame = w'.tree.frame) : w = w' := by
  obtain ⟨t, s, ending⟩ := w
  obtain ⟨t', s', ending'⟩ := w'
  obtain ⟨hforest, hstate, hending⟩ := Walked.mk.inj hmap
  obtain rfl : t = t' := eq_of_forest hforest hframe
  obtain rfl : s = s' := hstate
  obtain rfl : ending = ending' := hending
  rfl

theorem walk_add_one {s : σ} {t : RuleTree} (h : (t.walk order visit depth s).ending ≠ .exhausted) :
    t.walk order visit (depth + 1) s = t.walk order visit depth s := by
  rw [ending_walk] at h
  have hforest : (t.walk order visit (depth + 1) s).map forest = (t.walk order visit depth s).map forest := by
    rw [forest_walk, forest_walk, walkList_congr (walk_succ order visit depth) t.trees s h]
  exact eq_of_map hforest ((frame_walk ..).trans (frame_walk ..).symm)

/-- A walk that does not reach its bound does not depend on it. -/
theorem walk_of_le {s : σ} {t : RuleTree} (hdepth : depth ≤ depth')
    (h : (t.walk order visit depth s).ending ≠ .exhausted) :
    t.walk order visit depth' s = t.walk order visit depth s := by
  induction depth', hdepth using Nat.le_induction with
  | base => rfl
  | succ depth' hdepth ih => rw [walk_add_one (ih ▸ h), ih]

/-- After children every walk ends, and before children every walk that replaces nothing. -/
theorem walk_ends (s : σ) (t : RuleTree) (hdepth : Node.countAll t.trees ≤ depth)
    (h : order = .post ∨ ∀ s n new, (visit s n).2 ≠ .ok (.replace new)) :
    (t.walk order visit depth s).ending ≠ .exhausted := by
  rw [ending_walk]
  refine walkList_ends (fun c hc s => ?_) s
  have hcount : c.count ≤ depth := (Node.countAll_le_of_mem hc).trans hdepth
  cases order with
  | pre => exact walkPre_ends (h.resolve_left nofun) c hcount s
  | post => exact walkPost_ends c hcount s

end RuleTree

end LogRules
