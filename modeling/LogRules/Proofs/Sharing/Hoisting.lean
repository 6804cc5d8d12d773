import LogRules.Proofs.Sharing.Store

/-! # Hoisting

Hoisting replaces the topmost match rules and selections and then works off a queue of stored nodes.
The store of a run is made of the bindings that are done and of those that wait (`Hoisting.store`),
so taking a binding from the queue changes nothing in it. One step keeps the meaning of what it
replaces (`hoisting_kept`), and the whole run leads to a tree that stands for the one it began with
(`represents_hoistEntities`). `Drains` is the loop over the queue without a bound; the bound of
`drain` is never reached (`drains_drain`). -/

namespace LogRules.Sharing

/-- Match rules and selections in order are hoisted. -/
def isEntity : Node → Bool
  | .matchRule _ _ => true
  | .linearSelect _ => true
  | _ => false

theorem isShareable_of_isEntity {n : Node} (h : isEntity n) : isShareable n := by
  cases n with
  | linearSelect nodes => rfl
  | matchRule rule onSuccess => rfl
  | _ => cases h

namespace Hoisting

theorem hoistIn_of_isEntity (s : Hoisting) {n : Node} (h : isEntity n) :
    s.hoistIn n = s.hoist n := by
  cases n with
  | linearSelect nodes => rfl
  | matchRule rule onSuccess => rfl
  | _ => cases h

theorem hoistIn_of_not_isEntity (s : Hoisting) {n : Node} (h : ¬ isEntity n) :
    s.hoistIn n = (n.withChildren (s.hoistInAll n.children).1, (s.hoistInAll n.children).2) := by
  cases n with
  | linearSelect nodes => exact absurd rfl h
  | matchRule rule onSuccess => exact absurd rfl h
  | _ => rfl

theorem hoistInAll_cons (s : Hoisting) (n : Node) (rest : List Node) :
    s.hoistInAll (n :: rest) = ((s.hoistIn n).1 :: ((s.hoistIn n).2.hoistInAll rest).1,
      ((s.hoistIn n).2.hoistInAll rest).2) := rfl

/-! ### What is stored -/

/-- The bindings that are done and those that wait, with their names. -/
def store (s : Hoisting) (done : List (String × Node)) : Store :=
  ⟨s.names, done ++ s.queue, s.names.size⟩

/-- The match rules and selections of a tree are among some nodes. -/
def Covers (met : List Node) (n : Node) : Prop := ∀ m ∈ n.preorder, isEntity m → m ∈ met

theorem Covers.of_mem {met : List Node} {m n : Node} (h : Covers met n) (hm : m ∈ n.preorder) :
    Covers met m :=
  fun k hk => h k (Node.mem_preorder_trans hk hm)

/-- New bindings come last in the queue. They store nodes of the tree and have no more nodes than it
has. -/
theorem queue_hoisting :
    (∀ (n : Node) (s : Hoisting), ∃ new, (s.hoistIn n).2.queue = s.queue ++ new ∧
      (∀ e ∈ new, e.2 ∈ n.preorder) ∧ Node.countAll (new.map Prod.snd) ≤ n.count) ∧
    ∀ (nodes : List Node) (s : Hoisting), ∃ new, (s.hoistInAll nodes).2.queue = s.queue ++ new ∧
      (∀ e ∈ new, e.2 ∈ Node.preorderAll nodes) ∧
      Node.countAll (new.map Prod.snd) ≤ Node.countAll nodes := by
  refine Node.forest_induction ?_ ?_ ?_
  · intro n ih s
    by_cases hentity : isEntity n
    · rw [hoistIn_of_isEntity s hentity, hoist]
      cases s.names.get? n.signature with
      | some name => exact ⟨[], (List.append_nil _).symm, (fun _ h => nomatch h), Nat.zero_le _⟩
      | none =>
          refine ⟨[(_, n)], rfl, fun e he => ?_, Nat.le_refl _⟩
          cases List.mem_singleton.mp he
          exact Node.mem_preorder_self n
    · obtain ⟨new, hqueue, hmem, hcount⟩ := ih s
      rw [hoistIn_of_not_isEntity s hentity, Node.preorder_eq, Node.count_eq]
      exact ⟨new, hqueue, fun e he => List.mem_cons_of_mem _ (hmem e he), by omega⟩
  · exact fun s => ⟨[], (List.append_nil _).symm, (fun _ h => nomatch h), Nat.le_refl _⟩
  · intro n rest ihn ihrest s
    obtain ⟨new, hqueue, hmem, hcount⟩ := ihn s
    obtain ⟨new', hqueue', hmem', hcount'⟩ := ihrest (s.hoistIn n).2
    rw [hoistInAll_cons, Node.preorderAll, Node.countAll]
    refine ⟨new ++ new', ?_, fun e he => ?_, ?_⟩
    · rw [hqueue', hqueue, List.append_assoc]
    · rcases List.mem_append.mp he with he | he
      · exact List.mem_append_left _ (hmem e he)
      · exact List.mem_append_right _ (hmem' e he)
    · rw [List.map_append, Node.countAll_append]
      omega

section Kept

variable {whole : Node} {met : List Node} {old : List String} {μ : Meanings}
variable {done : List (String × Node)}

theorem hoist_kept {s : Hoisting} {n : Node} (hw : whole.IsPlain) (hmet : SignaturesDecide met)
    (h : (s.store done).Sound whole met old "entity" μ) (hparts : Parts whole μ [n])
    (hentity : isEntity n) (hn : n ∈ met) :
    Kept whole met old "entity" μ [n] [(s.hoist n).1] ((s.hoist n).2.store done) := by
  unfold hoist
  cases hname : s.names.get? n.signature with
  | some name => exact .found h hmet hn hname
  | none =>
      have hstored := Kept.store h hw hn hparts (isShareable_of_isEntity hentity)
      rw [store, ← List.append_assoc, Table.size_insert _ hname]
      exact hstored

/-- Hoisting in trees keeps what the trees stand for. -/
theorem hoisting_kept (hw : whole.IsPlain) (hmet : SignaturesDecide met) :
    (∀ (n : Node) (s : Hoisting) (μ : Meanings), (s.store done).Sound whole met old "entity" μ →
      Parts whole μ [n] → Covers met n →
      Kept whole met old "entity" μ [n] [(s.hoistIn n).1] ((s.hoistIn n).2.store done)) ∧
    ∀ (nodes : List Node) (s : Hoisting) (μ : Meanings),
      (s.store done).Sound whole met old "entity" μ → Parts whole μ nodes →
      (∀ n ∈ nodes, Covers met n) →
      Kept whole met old "entity" μ nodes (s.hoistInAll nodes).1
        ((s.hoistInAll nodes).2.store done) := by
  refine Node.forest_induction ?_ ?_ ?_
  · intro n ih s μ h hparts hcovers
    by_cases hentity : isEntity n
    · rw [hoistIn_of_isEntity s hentity]
      exact hoist_kept hw hmet h hparts hentity (hcovers n (Node.mem_preorder_self n) hentity)
    · rw [hoistIn_of_not_isEntity s hentity]
      by_cases href : n.IsReference
      · obtain ⟨name, rfl⟩ := href
        exact .refl h _
      · refine .withChildren href (ih s μ h (.children (hparts n List.mem_cons_self)) ?_)
        exact fun c hc => hcovers.of_mem (Node.mem_preorder_of_mem_children hc)
  · intro s μ h _ _
    exact .refl h _
  · intro n rest ihn ihrest s μ h hparts hcovers
    rw [hoistInAll_cons]
    refine Kept.cons hw hparts (ihn s μ h hparts.head (hcovers n List.mem_cons_self)) ?_
    exact fun μ₁ h₁ hp₁ => ihrest _ μ₁ h₁ hp₁ fun m hm => hcovers m (List.mem_cons_of_mem _ hm)

/-- Working off the queue leads to bindings that are right, however far it goes. -/
theorem drain_sound (hw : whole.IsPlain) (hmet : SignaturesDecide met) (bound : Nat)
    (s : Hoisting) (h : (s.store done).Sound whole met old "entity" μ)
    (hqueue : ∀ e ∈ s.queue, Covers met e.2) :
    ∃ μ' names next, Extends μ μ' ∧
      Store.Sound whole met old "entity" μ' ⟨names, done ++ s.drain bound, next⟩ := by
  induction bound generalizing s done μ with
  | zero => exact ⟨μ, s.names, s.names.size, .refl μ, h⟩
  | succ bound ih =>
      obtain ⟨names, queue⟩ := s
      cases queue with
      | nil => exact ⟨μ, names, names.size, .refl μ, h⟩
      | cons e rest =>
          obtain ⟨name, n⟩ := e
          have hstore : ((⟨names, rest⟩ : Hoisting).store (done ++ [(name, n)])).Sound whole met old
              "entity" μ := by
            rw [store, List.append_assoc]
            exact h
          have hn : Stands whole μ (name, n) :=
            hstore.stands _ (List.mem_append_left _ (List.mem_append_right _ List.mem_cons_self))
          have hparts : Parts whole μ n.children := .children (hn.meaning_eq ▸ hn.isPart)
          have hcovers : Covers met n := hqueue _ List.mem_cons_self
          have hbelow : ∀ c ∈ n.children, Covers met c := fun c hc =>
            hcovers.of_mem (Node.mem_preorder_of_mem_children hc)
          obtain ⟨new, hnew, hmem, -⟩ := queue_hoisting.2 n.children ⟨names, rest⟩
          obtain ⟨μ₁, hμ₁, hσ₁, heq⟩ :=
            (hoisting_kept hw hmet).2 n.children ⟨names, rest⟩ μ hstore hparts hbelow
          -- The binding is put back with the children that hoisting left.
          have hback : Stands whole μ₁ (name, n.withChildren (hoistInAll ⟨names, rest⟩ n.children).1) :=
            (hn.of_extends hw hμ₁).withChildren (heq.trans (hparts.map_meaning_eq hw hμ₁).symm)
          rw [store, List.append_assoc] at hσ₁
          have hput := Store.Sound.replace hσ₁ hback
          have hqueue' : ∀ e ∈ (hoistInAll ⟨names, rest⟩ n.children).2.queue, Covers met e.2 := by
            intro e he
            rw [hnew] at he
            rcases List.mem_append.mp he with he | he
            · exact hqueue e (List.mem_cons_of_mem _ he)
            · refine hcovers.of_mem ?_
              rw [Node.preorder_eq]
              exact List.mem_cons_of_mem _ (hmem e he)
          rw [List.append_cons] at hput
          obtain ⟨μ₂, names₂, next₂, hμ₂, hσ₂⟩ := ih _ hput hqueue'
          refine ⟨μ₂, names₂, next₂, hμ₁.trans hμ₂, ?_⟩
          rw [List.append_assoc] at hσ₂
          exact hσ₂

end Kept

/-! ### The loop over the queue -/

/-- The loop without a bound: it ends when the queue is empty, and puts the first binding of the
queue back when its children are hoisted. -/
inductive Drains : Hoisting → List (String × Node) → Prop
  | done (names : Table String) : Drains ⟨names, []⟩ []
  | next {names : Table String} {name : String} {n : Node} {rest bindings : List (String × Node)}
      (h : Drains (hoistInAll ⟨names, rest⟩ n.children).2 bindings) :
      Drains ⟨names, (name, n) :: rest⟩
        ((name, n.withChildren (hoistInAll ⟨names, rest⟩ n.children).1) :: bindings)

/-- The loop takes at most one turn for every node that waits: a turn takes a node from the queue,
and what it adds are nodes below. -/
theorem drains_drain (bound : Nat) (s : Hoisting)
    (h : Node.countAll (s.queue.map Prod.snd) ≤ bound) : Drains s (s.drain bound) := by
  induction bound generalizing s with
  | zero =>
      obtain ⟨names, queue⟩ := s
      cases queue with
      | nil => exact .done names
      | cons e rest =>
          rw [List.map_cons, Node.countAll, Node.count_eq] at h
          omega
  | succ bound ih =>
      obtain ⟨names, queue⟩ := s
      cases queue with
      | nil => exact .done names
      | cons e rest =>
          obtain ⟨name, n⟩ := e
          obtain ⟨new, hnew, -, hcount⟩ := queue_hoisting.2 n.children ⟨names, rest⟩
          refine .next (ih _ ?_)
          rw [List.map_cons, Node.countAll, Node.count_eq] at h
          dsimp only at h
          rw [hnew, List.map_append, Node.countAll_append]
          change Node.countAll (rest.map Prod.snd) + _ ≤ bound
          omega

end Hoisting

/-! ### The run -/

/-- What hoisting without a bound makes of a tree. -/
def Hoists (t t' : RuleTree) : Prop :=
  ∃ bindings, (Hoisting.start.hoistIn t.root).2.Drains bindings ∧
    t' = { t with
      root := (Hoisting.start.hoistIn t.root).1
      bindings := t.bindings.insertAll bindings }

theorem hoists_hoistEntities (t : RuleTree) : Hoists t (hoistEntities t) := by
  obtain ⟨new, hnew, -, hcount⟩ := Hoisting.queue_hoisting.1 t.root .start
  refine ⟨_, Hoisting.drains_drain t.root.count _ ?_, rfl⟩
  rw [hnew]
  exact hcount

/-- The nodes whose signatures hoisting compares. -/
def metInHoisting (t : RuleTree) : List Node := t.root.preorder.filter isEntity

/-- A hoisted tree stands for the tree that it was hoisted from, and its new names have numbers. -/
theorem represents_hoistEntities {t : RuleTree} (hroot : t.root.IsPlain)
    (hbindings : t.bindings = .empty) (hmet : SignaturesDecide (metInHoisting t)) :
    ∃ μ, Represents t.root μ (hoistEntities t) ∧
      ∀ name ∈ (hoistEntities t).bindings.keys, ∃ k : Nat, name = "entity" ++ toString k := by
  have hself := represents_self hroot hbindings
  have hkeys : t.bindings.keys = [] := by rw [hbindings]; rfl
  have hstart : (Hoisting.start.store []).Sound t.root (metInHoisting t) t.bindings.keys "entity"
      .reference :=
    Store.sound_start hself _ fun k _ => by simp [hkeys]
  have hcovers : Hoisting.Covers (metInHoisting t) t.root :=
    fun m hm hentity => List.mem_filter.mpr ⟨hm, hentity⟩
  have hparts : Parts t.root .reference [t.root] := by
    intro n hn
    cases List.mem_singleton.mp hn
    exact hself.root ▸ Node.mem_preorder_self _
  obtain ⟨μ₁, hμ₁, hσ₁, heq⟩ :=
    (Hoisting.hoisting_kept hroot hmet).1 t.root .start .reference hstart hparts hcovers
  have hqueue : ∀ e ∈ (Hoisting.start.hoistIn t.root).2.queue,
      Hoisting.Covers (metInHoisting t) e.2 := by
    obtain ⟨new, hnew, hmem, -⟩ := Hoisting.queue_hoisting.1 t.root .start
    intro e he
    rw [hnew] at he
    exact hcovers.of_mem (hmem e he)
  obtain ⟨μ₂, names, next, hμ₂, hσ₂⟩ :=
    Hoisting.drain_sound hroot hmet t.root.count _ hσ₁ hqueue
  have hroot' : (Hoisting.start.hoistIn t.root).1.meaning μ₂ = t.root.unlabelled := by
    rw [List.map_singleton, List.map_singleton, List.singleton_inj, hself.root] at heq
    rw [hμ₂.meaning_eq (heq ▸ Node.isPlain_unlabelled.mpr hroot), heq]
  have hrep := hσ₂.represents (t := { t with root := (Hoisting.start.hoistIn t.root).1 }) hroot' rfl
    (by simp [hbindings, Table.empty])
  refine ⟨μ₂, hrep, fun name hname => ?_⟩
  have hname' : name ∈ t.bindings.keys ++ _ := hσ₂.keys_insertAll rfl ▸ hname
  rw [hkeys, List.nil_append] at hname'
  obtain ⟨e, he, rfl⟩ := List.mem_map.mp hname'
  exact hσ₂.numbered e he

end LogRules.Sharing
