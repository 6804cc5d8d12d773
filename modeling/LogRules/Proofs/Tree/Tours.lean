import LogRules.Proofs.Tree.Addresses

/-! # Walks in small steps

A tour goes through a list of addresses that are still to be visited. A step takes the first one, shows the node
there to the visitor, stores its answer in the tree and puts the addresses below the node in front of the list when
the walk has to go there (`Tour`). Before children this list starts with the trees that are walked; after children
it holds all addresses from the start. Every walk that ends is a tour (`RuleTree.exists_tour`). -/

namespace LogRules

variable {σ ε : Type}

/-! ### Visits -/

/-- A visit of a walk: where the visitor was, what it was shown and what it answered. -/
@[ext]
structure Visit (ε : Type) where
  address : Address
  node : Node
  answer : Except ε Step

namespace Node

mutual
/-- The addresses of a tree that stands at an address, every one behind those below it. -/
def postorder : Node → Address → List Address
  | chain nodes, a => postorderAll nodes a 0 ++ [a]
  | linearSelect nodes, a => postorderAll nodes a 0 ++ [a]
  | messageIdSelect _ nodes, a => postorderAll nodes a 0 ++ [a]
  | matchRule _ onSuccess, a => postorderAll onSuccess a 0 ++ [a]
  | action _, a => [a]
  | reference _, a => [a]
  | noop, a => [a]

/-- The addresses of the children of a node from child `i` on. -/
def postorderAll : List Node → Address → (i : Nat) → List Address
  | [], _, _ => []
  | n :: rest, a, i => postorder n (a ++ [i]) ++ postorderAll rest a (i + 1)
end

theorem postorder_eq (n : Node) (a : Address) : n.postorder a = postorderAll n.children a 0 ++ [a] := by
  cases n <;> rfl

end Node

namespace Order

/-- The addresses to start with for a tree that stands at an address. -/
def agenda (order : Order) (n : Node) (a : Address) : List Address :=
  match order with
  | .pre => [a]
  | .post => n.postorder a

/-- The addresses to start with for the children of a node from child `i` on. -/
def agendaAll (order : Order) : List Node → Address → (i : Nat) → List Address
  | [], _, _ => []
  | n :: rest, a, i => order.agenda n (a ++ [i]) ++ agendaAll order rest a (i + 1)

theorem agendaAll_post (nodes : List Node) (a : Address) (i : Nat) :
    Order.post.agendaAll nodes a i = Node.postorderAll nodes a i := by
  induction nodes generalizing i with
  | nil => rfl
  | cons n rest ih => rw [agendaAll, ih, Node.postorderAll, agenda]

end Order

namespace Visit

/-- How a walk ends with this visit, if it does. -/
def stop? (v : Visit ε) : Option (Ending ε) :=
  match v.answer with
  | .error e => some (.failed e)
  | .ok .cancel => some .cancelled
  | .ok _ => none

/-- The tree with the replacement of this visit, if there is one. -/
def store (n : Node) (v : Visit ε) : Node :=
  match v.answer with
  | .ok (.replace new) => n.put v.address new
  | _ => n

/-- The addresses below a node that a walk goes to next. -/
def next (order : Order) (v : Visit ε) : List Address :=
  match order, v.answer with
  | .pre, .ok .proceed => Order.pre.agendaAll v.node.children v.address 0
  | .pre, .ok (.replace new) => Order.pre.agendaAll new.children v.address 0
  | _, _ => []

end Visit

/-! ### Steps and tours -/

section Tours

variable (order : Order) (visit : Visitor σ ε)

/-- Some visits of a tour, one after the other. -/
inductive Steps : σ → Node → List Address → List (Visit ε) → σ → Node → List Address → Prop
  | refl {s : σ} {n : Node} {todo : List Address} : Steps s n todo [] s n todo
  | step {s s' s'' : σ} {n n' : Node} {v : Visit ε} {todo todo' : List Address} {log : List (Visit ε)}
      (hnode : n.at? v.address = some v.node) (hanswer : visit s v.node = (s', v.answer)) (hgo : v.stop? = none)
      (hrest : Steps s' (v.store n) (v.next order ++ todo) log s'' n' todo') :
      Steps s n (v.address :: todo) (v :: log) s'' n' todo'

/-- All visits of a tour. It completes when nothing is left to do, or ends with the visit that stops it. -/
inductive Tour : σ → Node → List Address → List (Visit ε) → Walked σ ε Node → Prop
  | done {s : σ} {n : Node} : Tour s n [] [] ⟨n, s, .completed⟩
  | stop {s s' : σ} {n : Node} {v : Visit ε} {todo : List Address} {e : Ending ε}
      (hnode : n.at? v.address = some v.node) (hanswer : visit s v.node = (s', v.answer))
      (hstop : v.stop? = some e) : Tour s n (v.address :: todo) [v] ⟨n, s', e⟩
  | step {s s' : σ} {n : Node} {v : Visit ε} {todo : List Address} {log : List (Visit ε)} {w : Walked σ ε Node}
      (hnode : n.at? v.address = some v.node) (hanswer : visit s v.node = (s', v.answer)) (hgo : v.stop? = none)
      (hrest : Tour s' (v.store n) (v.next order ++ todo) log w) : Tour s n (v.address :: todo) (v :: log) w

variable {order visit} {s s' s'' : σ} {n n' n'' : Node} {todo todo' todo'' : List Address}
  {log log' : List (Visit ε)} {w : Walked σ ε Node}

theorem Steps.trans (h : Steps order visit s n todo log s' n' todo')
    (h' : Steps order visit s' n' todo' log' s'' n'' todo'') :
    Steps order visit s n todo (log ++ log') s'' n'' todo'' := by
  induction h with
  | refl => exact h'
  | step hnode hanswer hgo hrest ih => exact .step hnode hanswer hgo (ih h')

theorem Steps.tour (h : Steps order visit s n todo log s' n' todo') (h' : Tour order visit s' n' todo' log' w) :
    Tour order visit s n todo (log ++ log') w := by
  induction h with
  | refl => exact h'
  | step hnode hanswer hgo hrest ih => exact .step hnode hanswer hgo (ih h')

variable (order visit) in
/-- The walk does what is to be done in front of `rest`, or it is a tour that ends there. -/
structure Leads (s : σ) (n : Node) (todo rest : List Address) (w : Walked σ ε Node) : Prop where
  completed : w.ending = .completed → ∃ log, Steps order visit s n (todo ++ rest) log w.state w.tree rest
  stopped : w.ending ≠ .completed → w.ending ≠ .exhausted → ∃ log, Tour order visit s n (todo ++ rest) log w

theorem leads_exhausted (s : σ) (n n' : Node) (todo rest : List Address) :
    Leads order visit s n todo rest ⟨n', s, .exhausted⟩ := ⟨nofun, fun _ h => absurd rfl h⟩

theorem Leads.of_stop {v : Visit ε} {e : Ending ε} {rest : List Address} (hnode : n.at? v.address = some v.node)
    (hanswer : visit s v.node = (s', v.answer)) (hstop : v.stop? = some e) (he : e ≠ .completed) :
    Leads order visit s n [v.address] rest ⟨n, s', e⟩ :=
  ⟨fun h => absurd h he, fun _ _ => ⟨[v], .stop hnode hanswer hstop⟩⟩

theorem leads_nothing (s : σ) (n : Node) (rest : List Address) :
    Leads order visit s n [] rest ⟨n, s, .completed⟩ := ⟨fun _ => ⟨[], .refl⟩, fun h => absurd rfl h⟩

/-- A visit that does not stop the walk. -/
theorem Leads.of_step {v : Visit ε} {rest : List Address} (hnode : n.at? v.address = some v.node)
    (hanswer : visit s v.node = (s', v.answer)) (hgo : v.stop? = none)
    (h : Leads order visit s' (v.store n) (v.next order) rest w) :
    Leads order visit s n [v.address] rest w := by
  constructor
  · intro hcompleted
    obtain ⟨log, hlog⟩ := h.completed hcompleted
    exact ⟨v :: log, .step hnode hanswer hgo hlog⟩
  · intro hstopped hends
    obtain ⟨log, hlog⟩ := h.stopped hstopped hends
    exact ⟨v :: log, .step hnode hanswer hgo hlog⟩

/-- A walk behind one that completed. -/
theorem Leads.trans {before rest : List Address} {first : Walked σ ε Node}
    (hfirst : Leads order visit s n before (todo ++ rest) first) (hcompleted : first.ending = .completed)
    (h : Leads order visit first.state first.tree todo rest w) : Leads order visit s n (before ++ todo) rest w := by
  obtain ⟨log, hsteps⟩ := hfirst.completed hcompleted
  rw [← List.append_assoc] at hsteps
  constructor
  · intro hcompleted
    obtain ⟨log', hlog⟩ := h.completed hcompleted
    exact ⟨_, hsteps.trans hlog⟩
  · intro hstopped hends
    obtain ⟨log', hlog⟩ := h.stopped hstopped hends
    exact ⟨_, hsteps.tour hlog⟩

/-- A walk that did not complete leaves out what was to be done next. -/
theorem Leads.leaveOut {more rest : List Address} (h : Leads order visit s n todo (more ++ rest) w)
    (hstopped : w.ending ≠ .completed) : Leads order visit s n (todo ++ more) rest w := by
  refine ⟨fun hcompleted => absurd hcompleted hstopped, fun _ hends => ?_⟩
  rw [List.append_assoc]
  exact h.stopped hstopped hends

end Tours

/-! ### Walks -/

section Walks

variable {order : Order} {visit : Visitor σ ε}

theorem modify_length_append (before : List Node) (c : Node) (behind : List Node) (f : Node → Node) :
    (before ++ c :: behind).modify before.length f = before ++ f c :: behind := by
  induction before with
  | nil => rfl
  | cons b before ih => exact congrArg (b :: ·) ih

/-- A new child among the children of a node. -/
theorem Node.put_child {n m : Node} {a : Address} {before behind : List Node} {c : Node} (h : n.at? a = some m)
    (hchildren : m.children = before ++ c :: behind) (new : Node) :
    n.put (a ++ [before.length]) new = n.put a (m.withChildren (before ++ new :: behind)) := by
  rw [put_append h, put, hchildren, modify_length_append]
  rfl

theorem walkList_completed {step : σ → Node → Walked σ ε Node} {s : σ} {c : Node}
    (h : (step s c).ending = .completed) (rest : List Node) :
    Node.walkList step s (c :: rest) = (Node.walkList step (step s c).state rest).map ((step s c).tree :: ·) := by
  rw [Node.walkList, h]

theorem walkList_stopped {step : σ → Node → Walked σ ε Node} {s : σ} {c : Node}
    (h : (step s c).ending ≠ .completed) (rest : List Node) :
    Node.walkList step s (c :: rest) = ⟨(step s c).tree :: rest, (step s c).state, (step s c).ending⟩ := by
  rw [Node.walkList]
  cases hending : (step s c).ending with
  | completed => exact absurd hending h
  | _ => rfl

/-- Walking siblings, when walking each of them is known. `before` are the siblings that were walked already. -/
theorem leads_walkList {step : σ → Node → Walked σ ε Node}
    (hstep : ∀ s c n a rest, n.at? a = some c →
      Leads order visit s n (order.agenda c a) rest ((step s c).map (n.put a)))
    (nodes : List Node) (s : σ) {n m : Node} {a : Address} {before : List Node} (hnode : n.at? a = some m)
    (hchildren : m.children = before ++ nodes) (rest : List Address) :
    Leads order visit s n (order.agendaAll nodes a before.length) rest
      ((Node.walkList step s nodes).map fun walked => n.put a (m.withChildren (before ++ walked))) := by
  induction nodes generalizing s n m before with
  | nil =>
      have hself : n.put a (m.withChildren (before ++ [])) = n := by
        rw [← hchildren, Node.withChildren_children, Node.put_self hnode]
      rw [Node.walkList, Walked.map, hself]
      exact ⟨fun _ => ⟨[], .refl⟩, fun h => absurd rfl h⟩
  | cons c nodes ih =>
      have hchild : n.at? (a ++ [before.length]) = some c := by
        rw [Node.at?_child hnode, hchildren]
        simp
      have hfirst := hstep s c n _ (order.agendaAll nodes a (before.length + 1) ++ rest) hchild
      have hput : (step s c).map (n.put (a ++ [before.length])) =
          (step s c).map fun c' => n.put a (m.withChildren (before ++ c' :: nodes)) :=
        congrArg (Walked.map · (step s c)) (funext (Node.put_child hnode hchildren))
      rw [hput] at hfirst
      rw [Order.agendaAll]
      by_cases hcompleted : (step s c).ending = .completed
      · rw [walkList_completed hcompleted]
        refine hfirst.trans hcompleted ?_
        show Leads order visit (step s c).state (n.put a (m.withChildren (before ++ (step s c).tree :: nodes))) _
          rest _
        generalize (step s c).tree = c'
        -- the walk goes on in the node that has the new child
        have hlength : (before ++ c' :: nodes).length = m.children.length := by rw [hchildren]; simp
        have hnew : (m.withChildren (before ++ c' :: nodes)).children = (before ++ [c']) ++ nodes := by
          rw [Node.children_withChildren hlength, List.append_assoc]
          rfl
        have hrest := ih (step s c).state (Node.at?_put hnode _) hnew
        rw [List.length_append, List.length_singleton] at hrest
        simp only [Node.put_put, Node.withChildren_withChildren, List.append_assoc] at hrest
        exact hrest
      · rw [walkList_stopped hcompleted]
        exact hfirst.leaveOut hcompleted

/-- Walking the children of a node that stands at an address. -/
theorem leads_walkChildren {step : σ → Node → Walked σ ε Node}
    (hstep : ∀ s c n a rest, n.at? a = some c →
      Leads order visit s n (order.agenda c a) rest ((step s c).map (n.put a)))
    (s : σ) {n m : Node} {a : Address} (hnode : n.at? a = some m) (rest : List Address) :
    Leads order visit s n (order.agendaAll m.children a 0) rest ((Node.walkChildren step s m).map (n.put a)) :=
  have hchildren : m.children = [] ++ m.children := rfl
  leads_walkList hstep m.children s hnode hchildren rest

theorem leads_walkPre (visit : Visitor σ ε) (depth : Nat) : ∀ s c n a rest, n.at? a = some c →
    Leads .pre visit s n [a] rest ((Node.walkPre visit depth s c).map (n.put a)) := by
  induction depth with
  | zero => exact fun s c n a rest _ => leads_exhausted ..
  | succ depth ih =>
      intro s c n a rest hnode
      have hself := Node.put_self hnode
      rcases hanswer : visit s c with ⟨s', answer⟩
      rw [Node.walkPre, hanswer]
      rcases answer with e | (_ | _ | _ | new)
      · rw [Walked.map, hself]
        exact .of_stop (v := ⟨a, c, .error e⟩) hnode hanswer rfl nofun
      · exact .of_step (v := ⟨a, c, .ok .proceed⟩) hnode hanswer rfl (leads_walkChildren ih s' hnode rest)
      · rw [Walked.map, hself]
        exact .of_step (v := ⟨a, c, .ok .skip⟩) hnode hanswer rfl (leads_nothing s' n rest)
      · rw [Walked.map, hself]
        exact .of_stop (v := ⟨a, c, .ok .cancel⟩) hnode hanswer rfl nofun
      · have hchildren := leads_walkChildren ih s' (Node.at?_put hnode new) rest
        have hput : (n.put a new).put a = n.put a := funext (Node.put_put n a new)
        rw [hput] at hchildren
        exact .of_step (v := ⟨a, c, .ok (.replace new)⟩) hnode hanswer rfl hchildren

theorem leads_walkPost (visit : Visitor σ ε) (depth : Nat) : ∀ s c n a rest, n.at? a = some c →
    Leads .post visit s n (c.postorder a) rest ((Node.walkPost visit depth s c).map (n.put a)) := by
  induction depth with
  | zero => exact fun s c n a rest _ => leads_exhausted ..
  | succ depth ih =>
      intro s c n a rest hnode
      have hbelow := leads_walkChildren ih s hnode ([a] ++ rest)
      rw [Order.agendaAll_post] at hbelow
      rw [Node.walkPost, Node.postorder_eq]
      by_cases hcompleted : (Node.walkChildren (Node.walkPost visit depth) s c).ending = .completed
      · rw [hcompleted]
        refine hbelow.trans hcompleted ?_
        generalize Node.walkChildren (Node.walkPost visit depth) s c = below
        have hnode' := Node.at?_put hnode below.tree
        rcases hanswer : visit below.state below.tree with ⟨s', answer⟩
        dsimp only [Walked.map]
        rcases answer with e | (_ | _ | _ | new)
        · exact .of_stop (v := ⟨a, below.tree, .error e⟩) hnode' hanswer rfl nofun
        · exact .of_step (v := ⟨a, below.tree, .ok .proceed⟩) hnode' hanswer rfl (leads_nothing s' _ rest)
        · exact .of_step (v := ⟨a, below.tree, .ok .skip⟩) hnode' hanswer rfl (leads_nothing s' _ rest)
        · exact .of_stop (v := ⟨a, below.tree, .ok .cancel⟩) hnode' hanswer rfl nofun
        · have hput := Node.put_put n a below.tree new
          rw [← hput]
          exact .of_step (v := ⟨a, below.tree, .ok (.replace new)⟩) hnode' hanswer rfl (leads_nothing s' _ rest)
      · have hleft := hbelow.leaveOut hcompleted
        cases hending : (Node.walkChildren (Node.walkPost visit depth) s c).ending with
        | completed => exact absurd hending hcompleted
        | _ => exact hleft

theorem leads_walk (order : Order) (visit : Visitor σ ε) (depth : Nat) : ∀ s c n a rest, n.at? a = some c →
    Leads order visit s n (order.agenda c a) rest ((c.walk order visit depth s).map (n.put a)) := by
  cases order with
  | pre => exact leads_walkPre visit depth
  | post => exact leads_walkPost visit depth

end Walks

end LogRules
