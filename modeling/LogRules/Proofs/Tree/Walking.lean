import LogRules.Proofs.Tree.Coverage

/-! # Walks of a rule tree

A walk of a rule tree is a tour through its root and then through its bindings. The first number of an address tells
which of these trees it goes into, so a visit of a walk is known by its address, also when two nodes are equal.
`RuleTree.Account` says what the visits of a walk are and what becomes of the answers; every walk that ends has an
account, and two walks with the same answers up to a visit that stops the one have the same visits up to there
(`RuleTree.walks_account`). -/

namespace LogRules

variable {σ τ ε : Type}

namespace RuleTree

/-! ### Nodes of a rule tree -/

/-- The tree of the root and those of the bindings in order. -/
def trees (t : RuleTree) : List Node := t.root :: t.bindings.values

/-- The node at an address, which starts with the number of its tree. -/
def at? (t : RuleTree) : Address → Option Node
  | [] => none
  | i :: a => t.trees[i]?.bind (·.at? a)

/-- The rule tree with a new node at an address. -/
def put (t : RuleTree) : Address → Node → RuleTree
  | [], _ => t
  | 0 :: a, new => { t with root := t.root.put a new }
  | (i + 1) :: a, new => { t with bindings := ⟨t.bindings.entries.modify i fun e => (e.1, e.2.put a new)⟩ }

/-- The rule tree with the replacement of a visit, if there is one. -/
def store (t : RuleTree) (v : Visit ε) : RuleTree :=
  match v.answer with
  | .ok (.replace new) => t.put v.address new
  | _ => t

/-- The rule tree with the replacements of some visits, one after the other. -/
def replaced (t : RuleTree) (log : List (Visit ε)) : RuleTree := log.foldl store t

/-- The trees under one node. -/
def forest (t : RuleTree) : Node := .chain t.trees

/-- What no walk changes. -/
def frame (t : RuleTree) : List String × Table ValueMap × Option String :=
  (t.bindings.keys, t.valueMaps, t.timestampField)

theorem eq_of_forest {t t' : RuleTree} (hforest : t.forest = t'.forest) (hframe : t.frame = t'.frame) : t = t' := by
  obtain ⟨root, maps, bindings, field⟩ := t
  obtain ⟨root', maps', bindings', field'⟩ := t'
  obtain ⟨rfl, hvalues⟩ := List.cons.inj (Node.chain.inj hforest)
  have hkeys : bindings.keys = bindings'.keys := congrArg (·.1) hframe
  obtain rfl : maps = maps' := congrArg (·.2.1) hframe
  obtain rfl : field = field' := congrArg (·.2.2) hframe
  obtain rfl : bindings = bindings' :=
    congrArg Table.mk ((List.zip_of_prod hkeys hvalues).trans (List.zip_of_prod rfl rfl).symm)
  rfl

theorem at?_forest (t : RuleTree) {a : Address} (h : a ≠ []) : t.forest.at? a = t.at? a := by
  cases a with
  | nil => exact absurd rfl h
  | cons i a => rfl

theorem ne_nil_of_at? {t : RuleTree} {a : Address} (h : (t.at? a).isSome) : a ≠ [] := by
  rintro rfl
  cases h

/-- An edit of one element of a list, seen through a function. -/
theorem map_modify {α β : Type} (f : α → α) (f' : β → β) (g : α → β) (h : ∀ x, g (f x) = f' (g x)) (l : List α)
    (i : Nat) : (l.modify i f).map g = (l.map g).modify i f' := by
  induction l generalizing i with
  | nil => cases i <;> rfl
  | cons x l ih =>
      cases i with
      | zero => exact congrArg (· :: l.map g) (h x)
      | succ i => exact congrArg (g x :: ·) (ih i)

theorem forest_put (t : RuleTree) {a : Address} (h : a ≠ []) (new : Node) :
    (t.put a new).forest = t.forest.put a new := by
  cases a with
  | nil => exact absurd rfl h
  | cons i a =>
      cases i with
      | zero => rfl
      | succ i =>
          have hvalues : (t.put ((i + 1) :: a) new).bindings.values = t.bindings.values.modify i (·.put a new) :=
            map_modify (fun e : String × Node => (e.1, e.2.put a new)) (fun c : Node => c.put a new) Prod.snd
              (fun _ => rfl) t.bindings.entries i
          exact congrArg (fun values => Node.chain (t.root :: values)) hvalues

theorem frame_put (t : RuleTree) (a : Address) (new : Node) : (t.put a new).frame = t.frame := by
  rcases a with _ | ⟨_ | i, a⟩
  · rfl
  · rfl
  · have hkeys : (t.put ((i + 1) :: a) new).bindings.keys = t.bindings.keys.modify i id :=
      map_modify (fun e : String × Node => (e.1, e.2.put a new)) id Prod.fst (fun _ => rfl) t.bindings.entries i
    rw [List.modify_id] at hkeys
    exact congrArg (·, t.valueMaps, t.timestampField) hkeys

theorem forest_store (t : RuleTree) {v : Visit ε} (h : v.address ≠ []) : (t.store v).forest = v.store t.forest := by
  rcases v with ⟨a, c, e | (_ | _ | _ | new)⟩
  case ok.replace => exact t.forest_put h new
  all_goals rfl

theorem forest_replaced (t : RuleTree) {log : List (Visit ε)} (h : ∀ v ∈ log, v.address ≠ []) :
    (t.replaced log).forest = t.forest.replaced log := by
  induction log generalizing t with
  | nil => rfl
  | cons v log ih =>
      obtain ⟨hv, hlog⟩ := List.forall_mem_cons.mp h
      exact (ih (t.store v) hlog).trans (congrArg (Node.replaced · log) (t.forest_store hv))

theorem frame_replaced (t : RuleTree) (log : List (Visit ε)) : (t.replaced log).frame = t.frame := by
  induction log generalizing t with
  | nil => rfl
  | cons v log ih =>
      refine (ih (t.store v)).trans ?_
      rcases v with ⟨a, c, e | (_ | _ | _ | new)⟩
      case ok.replace => exact t.frame_put a new
      all_goals rfl

/-! ### Walks as tours -/

section Walks

variable {order : Order} {visit : Visitor σ ε} {depth : Nat} {s : σ} {t : RuleTree}

/-- Bindings are walked like trees that stand side by side. -/
theorem map_walkBindings (step : σ → Node → Walked σ ε Node) (s : σ) (entries : List (String × Node)) :
    (walkBindings step s entries).map (·.map Prod.snd) = Node.walkList step s (entries.map Prod.snd) := by
  induction entries generalizing s with
  | nil => rfl
  | cons e entries ih =>
      rw [List.map_cons, walkBindings, Node.walkList, ← ih]
      cases (step s e.2).ending <;> rfl

theorem keys_walkBindings (step : σ → Node → Walked σ ε Node) (s : σ) (entries : List (String × Node)) :
    (walkBindings step s entries).tree.map Prod.fst = entries.map Prod.fst := by
  induction entries generalizing s with
  | nil => rfl
  | cons e entries ih =>
      rw [walkBindings, List.map_cons]
      cases (step s e.2).ending with
      | completed => exact congrArg (e.1 :: ·) (ih _)
      | _ => rfl

theorem forest_walk (order : Order) (visit : Visitor σ ε) (depth : Nat) (s : σ) (t : RuleTree) :
    (t.walk order visit depth s).map forest =
      (Node.walkList (Node.walk order visit depth) s t.trees).map Node.chain := by
  rw [walk, trees, Node.walkList, Table.values, ← map_walkBindings]
  cases (t.root.walk order visit depth s).ending <;> rfl

theorem frame_walk (order : Order) (visit : Visitor σ ε) (depth : Nat) (s : σ) (t : RuleTree) :
    (t.walk order visit depth s).tree.frame = t.frame := by
  rw [walk]
  cases (t.root.walk order visit depth s).ending with
  | completed => exact congrArg (·, t.valueMaps, t.timestampField) (keys_walkBindings ..)
  | _ => rfl

/-- A walk that ends is a tour through the trees. -/
theorem exists_tour (hends : (t.walk order visit depth s).ending ≠ .exhausted) :
    ∃ log, Tour order visit s t.forest (order.agendaAll t.trees [] 0) log
      ((t.walk order visit depth s).map forest) := by
  have hnode : t.forest.at? [] = some t.forest := rfl
  have hchildren : t.forest.children = [] ++ t.trees := rfl
  have hleads : Leads order visit s t.forest (order.agendaAll t.trees [] 0) []
      ((Node.walkList (Node.walk order visit depth) s t.trees).map Node.chain) :=
    leads_walkList (leads_walk order visit depth) t.trees s hnode hchildren []
  rw [← forest_walk] at hleads
  by_cases hcompleted : (t.walk order visit depth s).ending = .completed
  · obtain ⟨log, hsteps⟩ := hleads.completed hcompleted
    have htour := hsteps.tour .done
    rw [List.append_nil, List.append_nil, ← hcompleted] at htour
    exact ⟨log, htour⟩
  · obtain ⟨log, htour⟩ := hleads.stopped hcompleted hends
    rw [List.append_nil] at htour
    exact ⟨log, htour⟩

/-- What there is in the trees is to be visited, or below what is to be visited. -/
theorem covered_of_at? {a : Address} (h : (t.at? a).isSome) : Covered (Order.pre.agendaAll t.trees [] 0) a := by
  cases a with
  | nil => cases h
  | cons i a =>
      have hi : i < t.trees.length := by simpa using Option.isSome_of_isSome_bind h
      exact ⟨[i], Order.mem_agendaAll_pre.mpr ⟨i, hi, rfl⟩, a, rfl⟩

theorem mem_agendaAll_post {a : Address} : a ∈ Order.post.agendaAll t.trees [] 0 ↔ (t.at? a).isSome := by
  rw [Order.agendaAll_post, Node.mem_postorder.2]
  constructor
  · rintro ⟨j, c, rfl, hc⟩
    rw [Nat.zero_add]
    exact hc
  · intro h
    cases a with
    | nil => cases h
    | cons j c => exact ⟨j, c, by rw [Nat.zero_add]; rfl, h⟩

theorem address_ne_nil {log : List (Visit ε)} {w : Walked σ ε Node}
    (h : Tour order visit s t.forest (order.agendaAll t.trees [] 0) log w) : ∀ v ∈ log, v.address ≠ [] := by
  intro v hv
  cases order with
  | pre =>
      obtain ⟨r, hr, hrv⟩ := h.covered v hv
      obtain ⟨j, -, rfl⟩ := Order.mem_agendaAll_pre.mp hr
      exact fun hnil => absurd (hnil ▸ hrv).length_le (by simp)
  | post => exact ne_nil_of_at? (mem_agendaAll_post.mp (h.addresses_post.1.subset (List.mem_map_of_mem hv)))

end Walks

/-! ### The account of a walk -/

/-- What the visits of a walk are, and what becomes of the answers. -/
structure Account (order : Order) (visit : Visitor σ ε) (s : σ) (t : RuleTree) (w : Walked σ ε RuleTree)
    (log : List (Visit ε)) : Prop where
  /-- The visitor is shown these nodes one after the other, and gives these answers. -/
  answered : answers visit s (log.map (·.node)) = (w.state, log.map (·.answer))
  /-- It is shown the node that is at the address after the replacements so far. -/
  shown : ∀ before v behind, log = before ++ v :: behind → (t.replaced before).at? v.address = some v.node
  /-- The walk changes nothing else. -/
  tree : w.tree = t.replaced log
  ordered : (log.map (·.address)).Pairwise order.Before
  /-- The walk completes, or it ends with the one visit that stops it. -/
  ends : (w.ending = .completed ∧ ∀ v ∈ log, v.stop? = none) ∨
    ∃ before v, log = before ++ [v] ∧ v.stop? = some w.ending ∧ ∀ u ∈ before, u.stop? = none
  /-- Before children the nodes of the new tree are visited, except for those below a skip. -/
  visited_pre : order = .pre → ∀ a, (∃ v ∈ log, v.address = a) ↔
    (w.tree.at? a).isSome ∧ ¬ BelowSkip log a ∧ Reached order w log a
  /-- Before children the walk goes from a replacement to the children of the new node. -/
  replaced_pre : order = .pre → ∀ v ∈ log, ∀ new, v.answer = .ok (.replace new) → ∀ j c, new.children[j]? = some c →
    Reached order w log (v.address ++ [j]) → ∃ u ∈ log, u.address = v.address ++ [j] ∧ u.node = c
  /-- After children the nodes of the old tree are visited. -/
  visited_post : order = .post → ∀ a, (∃ v ∈ log, v.address = a) ↔ (t.at? a).isSome ∧ Reached order w log a

section Accounts

variable {order : Order} {visit : Visitor σ ε} {depth : Nat} {s : σ} {t : RuleTree} {log : List (Visit ε)}

theorem tree_walk (h : Tour order visit s t.forest (order.agendaAll t.trees [] 0) log
    ((t.walk order visit depth s).map forest)) : (t.walk order visit depth s).tree = t.replaced log := by
  refine eq_of_forest (h.tree_eq.trans (t.forest_replaced (address_ne_nil h)).symm) ?_
  rw [frame_walk, frame_replaced]

theorem visited_pre (h : Tour .pre visit s t.forest (Order.pre.agendaAll t.trees [] 0) log
    ((t.walk .pre visit depth s).map forest)) (a : Address) : (∃ v ∈ log, v.address = a) ↔
      ((t.walk .pre visit depth s).tree.at? a).isSome ∧ ¬ BelowSkip log a ∧
        Reached .pre (t.walk .pre visit depth s) log a := by
  have hparted := Order.parted_agendaAll_pre t.trees [] 0
  constructor
  · rintro ⟨v, hv, rfl⟩
    have hat := h.isSome_at? hparted hv
    rw [Walked.map, at?_forest _ (address_ne_nil h v hv)] at hat
    exact ⟨hat, h.not_belowSkip hparted v hv, .inr ⟨v, hv, .inl rfl⟩⟩
  · rintro ⟨hat, hskip, hreached⟩
    have hne := ne_nil_of_at? hat
    have hforest : (((t.walk .pre visit depth s).map forest).tree.at? a).isSome := by
      rw [Walked.map, at?_forest _ hne]
      exact hat
    have hcovered : Covered (Order.pre.agendaAll t.trees [] 0) a := by
      by_contra hnot
      rw [h.isSome_at?_of_not_covered hnot, at?_forest _ hne] at hforest
      exact hnot (covered_of_at? hforest)
    exact h.exists_visit_pre hparted hcovered hforest hskip hreached

theorem visited_post (h : Tour .post visit s t.forest (Order.post.agendaAll t.trees [] 0) log
    ((t.walk .post visit depth s).map forest)) (a : Address) : (∃ v ∈ log, v.address = a) ↔
      (t.at? a).isSome ∧ Reached .post (t.walk .post visit depth s) log a := by
  have hordered := Node.ordered_postorder.2 t.trees [] 0
  rw [← Order.agendaAll_post] at hordered
  constructor
  · rintro ⟨v, hv, rfl⟩
    have hagenda := h.addresses_post.1.subset (List.mem_map_of_mem hv)
    exact ⟨mem_agendaAll_post.mp hagenda, .inr ⟨v, hv, .inl rfl⟩⟩
  · rintro ⟨hat, hreached⟩
    exact h.exists_visit_post hordered (mem_agendaAll_post.mpr hat) hreached

theorem ordered_walk {w : Walked σ ε Node} (h : Tour order visit s t.forest (order.agendaAll t.trees [] 0) log w) :
    (log.map (·.address)).Pairwise order.Before := by
  cases order with
  | pre => exact h.ordered_pre (Order.parted_agendaAll_pre ..)
  | post =>
      have hordered := Node.ordered_postorder.2 t.trees [] 0
      rw [← Order.agendaAll_post] at hordered
      exact hordered.sublist h.addresses_post.1.sublist

/-- The visits of a tour account for the walk. -/
theorem account_of_tour (h : Tour order visit s t.forest (order.agendaAll t.trees [] 0) log
    ((t.walk order visit depth s).map forest)) : Account order visit s t (t.walk order visit depth s) log where
  answered := h.answers_eq
  shown before v behind hlog := by
    have hne := address_ne_nil h
    have hshown := h.shown hlog
    rwa [← t.forest_replaced fun u hu => hne u (hlog ▸ List.mem_append_left _ hu),
      at?_forest _ (hne v (hlog ▸ List.mem_append_right _ List.mem_cons_self))] at hshown
  tree := tree_walk h
  ordered := ordered_walk h
  ends := h.ends
  visited_pre := by
    rintro rfl
    exact visited_pre h
  replaced_pre := by
    rintro rfl v hv new hreplace j c hc hreached
    have hparted := Order.parted_agendaAll_pre t.trees [] 0
    have hj : j < new.children.length := (List.getElem?_eq_some_iff.mp hc).1
    obtain ⟨u, hu, haddress⟩ := h.exists_child_of_replacement hparted hv hreplace hj hreached
    have hnode := h.child_of_replacement hparted hv hreplace hu haddress
    exact ⟨u, hu, haddress, Option.some.inj (hnode.symm.trans hc)⟩
  visited_post := by
    rintro rfl
    exact visited_post h

end Accounts

/-! ### Answers and their effects -/

/-- A visitor that goes on where another one skips. -/
def proceeding (visit : Visitor σ ε) : Visitor σ ε := fun s n =>
  match visit s n with
  | (s, .ok .skip) => (s, .ok .proceed)
  | other => other

theorem walkPost_proceeding (visit : Visitor σ ε) (depth : Nat) :
    Node.walkPost (proceeding visit) depth = Node.walkPost visit depth := by
  induction depth with
  | zero => rfl
  | succ depth ih =>
      funext s n
      rw [Node.walkPost, Node.walkPost, ih]
      generalize Node.walkChildren (Node.walkPost visit depth) s n = below
      rcases hanswer : visit below.state below.tree with ⟨s', e | (_ | _ | _ | new)⟩ <;>
        simp only [proceeding, hanswer]

/-- After children a skip does what `proceed` does. -/
theorem walk_post_proceeding (visit : Visitor σ ε) (depth : Nat) (s : σ) (t : RuleTree) :
    t.walk .post (proceeding visit) depth s = t.walk .post visit depth s := by
  have hwalk : Node.walk .post (proceeding visit) depth = Node.walk .post visit depth :=
    walkPost_proceeding visit depth
  rw [walk, walk, hwalk]

theorem store_of_going {v : Visit ε} (h : ∀ new, v.answer ≠ .ok (.replace new)) (t : RuleTree) : t.store v = t := by
  rcases v with ⟨a, c, e | (_ | _ | _ | new)⟩
  case ok.replace => exact absurd rfl (h new)
  all_goals rfl

theorem replaced_of_proceed {log : List (Visit ε)} (h : ∀ v ∈ log, v.answer = .ok .proceed) (t : RuleTree) :
    t.replaced log = t := by
  induction log generalizing t with
  | nil => rfl
  | cons v log ih =>
      obtain ⟨hv, hlog⟩ := List.forall_mem_cons.mp h
      have hstore : t.store v = t := store_of_going (fun new hnew => absurd (hv.symm.trans hnew) nofun) t
      rw [replaced, List.foldl_cons, hstore]
      exact ih hlog t

section Answers

variable {order : Order} {visit : Visitor σ ε} {visit' : Visitor τ ε} {depth depth' : Nat} {s : σ} {s' : τ}
  {t : RuleTree} {w : Walked σ ε RuleTree} {log log' : List (Visit ε)}

/-- A walk that always goes on visits all nodes as they are and changes nothing. -/
theorem Account.proceeds (h : Account order visit s t w log) (hproceed : ∀ v ∈ log, v.answer = .ok .proceed) :
    w.ending = .completed ∧ w.tree = t ∧ (∀ a, (∃ v ∈ log, v.address = a) ↔ (t.at? a).isSome) ∧
      ∀ v ∈ log, t.at? v.address = some v.node := by
  have hcompleted : w.ending = .completed := by
    rcases h.ends with ⟨hcompleted, -⟩ | ⟨before, v, rfl, hstop, -⟩
    · exact hcompleted
    · have hv := hproceed v (List.mem_append_right _ List.mem_cons_self)
      rw [Visit.stop?, hv] at hstop
      cases hstop
  have htree : w.tree = t := h.tree.trans (replaced_of_proceed hproceed t)
  refine ⟨hcompleted, htree, fun a => ?_, fun v hv => ?_⟩
  · have hreached : Reached order w log a := .inl hcompleted
    cases order with
    | pre =>
        have hskip : ¬ BelowSkip log a := by
          rintro ⟨u, hu, hskip, -⟩
          exact absurd (hskip.symm.trans (hproceed u hu)) nofun
        rw [h.visited_pre rfl, htree]
        exact ⟨fun hat => hat.1, fun hat => ⟨hat, hskip, hreached⟩⟩
    | post =>
        rw [h.visited_post rfl]
        exact ⟨fun hat => hat.1, fun hat => ⟨hat, hreached⟩⟩
  · obtain ⟨before, behind, rfl⟩ := List.append_of_mem hv
    have hshown := h.shown before v behind rfl
    rwa [replaced_of_proceed fun u hu => hproceed u (List.mem_append_left _ hu)] at hshown

/-- A walk that is stopped makes the visits of every walk with the same answers before. -/
theorem visits_eq_take (h : Tour order visit s t.forest (order.agendaAll t.trees [] 0) log
    ((t.walk order visit depth s).map forest))
    (h' : Tour order visit' s' t.forest (order.agendaAll t.trees [] 0) log'
      ((t.walk order visit' depth' s').map forest)) {k : Nat} {v : Visit ε} (hv : log[k]? = some v)
    (hstop : v.stop? ≠ none) (hanswers : (log.take k).map (·.answer) = (log'.take k).map (·.answer)) :
    log.map (fun u => (u.address, u.node)) = (log'.take (k + 1)).map (fun u => (u.address, u.node)) ∧
      log.length = k + 1 ∧ (t.walk order visit depth s).tree = t.replaced (log'.take k) ∧
      v.stop? = some (t.walk order visit depth s).ending := by
  obtain ⟨hlog, v', hv', haddress, hnode⟩ := h.agree h' hv hstop hanswers
  have hk : k < log'.length := (List.getElem?_eq_some_iff.mp hv').1
  have htake : log'.take (k + 1) = log'.take k ++ [v'] := by rw [List.take_add_one, hv']; rfl
  have hstore (t : RuleTree) : t.store v = t :=
    store_of_going (fun new hnew => hstop (by rw [Visit.stop?, hnew])) t
  refine ⟨?_, ?_, ?_, ?_⟩
  · rw [hlog, htake, List.map_append, List.map_append, List.map_singleton, List.map_singleton, haddress, hnode]
  · rw [hlog, List.length_append, List.length_take, Nat.min_eq_left hk.le, List.length_singleton]
  · rw [tree_walk h, hlog, replaced, List.foldl_append]
    exact hstore _
  · rcases h.ends with ⟨-, hnone⟩ | ⟨before, u, hsplit, hu, -⟩
    · exact absurd (hnone v (List.mem_of_getElem? hv)) hstop
    · obtain ⟨-, hlast⟩ := List.append_inj' (hsplit.symm.trans hlog) rfl
      obtain rfl := List.singleton_inj.mp hlast
      exact hu

end Answers

/-- The visits of walks that end. When the visitor always goes on, they are all the nodes there are and the tree stays
as it is; a walk that is stopped makes the visits of every other one up to there and keeps their replacements; and
after children a skip is the same as going on. -/
theorem walks_account (order : Order) (visit : Visitor σ ε) (visit' : Visitor τ ε) (depth depth' : Nat) (s : σ)
    (s' : τ) (t : RuleTree) (hends : (t.walk order visit depth s).ending ≠ .exhausted)
    (hends' : (t.walk order visit' depth' s').ending ≠ .exhausted) :
    ∃ log log' : List (Visit ε), Account order visit s t (t.walk order visit depth s) log ∧
      Account order visit' s' t (t.walk order visit' depth' s') log' ∧
      ((∀ v ∈ log, v.answer = .ok .proceed) → (t.walk order visit depth s).ending = .completed ∧
        (t.walk order visit depth s).tree = t ∧ (∀ a, (∃ v ∈ log, v.address = a) ↔ (t.at? a).isSome) ∧
        ∀ v ∈ log, t.at? v.address = some v.node) ∧
      (∀ k v, log[k]? = some v → v.stop? ≠ none → (log.take k).map (·.answer) = (log'.take k).map (·.answer) →
        log.map (fun u => (u.address, u.node)) = (log'.take (k + 1)).map (fun u => (u.address, u.node)) ∧
        log.length = k + 1 ∧ (t.walk order visit depth s).tree = t.replaced (log'.take k) ∧
        v.stop? = some (t.walk order visit depth s).ending) ∧
      t.walk .post (proceeding visit) depth s = t.walk .post visit depth s := by
  obtain ⟨log, htour⟩ := exists_tour hends
  obtain ⟨log', htour'⟩ := exists_tour hends'
  have haccount := account_of_tour htour
  exact ⟨log, log', haccount, account_of_tour htour', haccount.proceeds,
    fun _ _ hv hstop hanswers => visits_eq_take htour htour' hv hstop hanswers, walk_post_proceeding visit depth s t⟩

/-- A visitor that replaces the second node and stops at visit `last`. -/
def replaceThenFail (last : Nat) : Visitor Nat String := fun k _ =>
  (k + 1, if k = last then .error "stop" else if k = 1 then .ok (.replace (.chain [.noop, .noop])) else .ok .proceed)

/-- A rule tree with one binding. -/
def twoTrees : RuleTree := ⟨.chain [.noop, .reference "r"], ∅, ⟨[("r", .chain [.noop])]⟩, none⟩

theorem walks_account_replaceThenFail :
    ((twoTrees.walk .pre (replaceThenFail 3) 4 0).ending = .failed "stop" ∧
      (twoTrees.walk .pre (replaceThenFail 9) 4 0).ending = .completed) ∧
      ∃ log log' : List (Visit String),
        Account .pre (replaceThenFail 3) 0 twoTrees (twoTrees.walk .pre (replaceThenFail 3) 4 0) log ∧
        Account .pre (replaceThenFail 9) 0 twoTrees (twoTrees.walk .pre (replaceThenFail 9) 4 0) log' := by
  have hfailed : (twoTrees.walk .pre (replaceThenFail 3) 4 0).ending = .failed "stop" := rfl
  have hcompleted : (twoTrees.walk .pre (replaceThenFail 9) 4 0).ending = .completed := rfl
  obtain ⟨log, log', haccount, haccount', -⟩ := walks_account .pre (replaceThenFail 3) (replaceThenFail 9) 4 4 0 0
    twoTrees (hfailed ▸ nofun) (hcompleted ▸ nofun)
  exact ⟨⟨hfailed, hcompleted⟩, log, log', haccount, haccount'⟩

end RuleTree

end LogRules
