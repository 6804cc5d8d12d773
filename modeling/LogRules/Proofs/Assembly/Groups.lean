import LogRules.Assembly
import LogRules.Proofs.Table
import Mathlib.Data.List.Induction

/-! # Nodes by message id

`groupById` collects every node under its id: the ids in the order in which they first occur, the nodes of
each id in their order (`entries_groupById`). The index of the selection built from the groups points from
an id to the rules of the id (`messageSelect_groupById`, `lookup_groups`). -/

namespace LogRules.Assembly

/-- The nodes with this id, in order. -/
def nodesOf (id : String) (nodes : List (String × Node)) : List Node :=
  (nodes.filter (·.1 = id)).map Prod.snd

/-- The ids of nodes, in the order in which they first occur. -/
def idsOf (nodes : List (String × Node)) : List String := (nodes.map Prod.fst).eraseDups

theorem groupById_append (nodes : List (String × Node)) (id : String) (n : Node) :
    groupById (nodes ++ [(id, n)]) =
      (groupById nodes).insert id ((((groupById nodes).get? id).getD []) ++ [n]) := by
  rw [groupById, List.foldl_append]
  rfl

theorem idsOf_append (nodes : List (String × Node)) (id : String) (n : Node) :
    idsOf (nodes ++ [(id, n)]) = if id ∈ idsOf nodes then idsOf nodes else idsOf nodes ++ [id] := by
  rw [idsOf, idsOf, List.map_append, List.map_singleton, List.eraseDups_append]
  by_cases h : id ∈ nodes.map Prod.fst
  · simp [List.removeAll, h]
  · simp [List.removeAll, h, List.eraseDups_cons]

theorem nodup_idsOf (nodes : List (String × Node)) : (idsOf nodes).Nodup := by
  induction nodes using List.reverseRecOn with
  | nil => exact List.nodup_nil
  | append_singleton nodes e ih =>
      rw [idsOf_append]
      split
      · exact ih
      · next h =>
          rw [List.nodup_append_comm]
          exact List.nodup_cons.mpr ⟨h, ih⟩

theorem nodesOf_append (id : String) (nodes nodes' : List (String × Node)) :
    nodesOf id (nodes ++ nodes') = nodesOf id nodes ++ nodesOf id nodes' := by
  rw [nodesOf, List.filter_append, List.map_append, nodesOf, nodesOf]

theorem nodesOf_singleton (id key : String) (n : Node) :
    nodesOf id [(key, n)] = if key = id then [n] else [] := by
  by_cases h : key = id <;> simp [nodesOf, h]

theorem nodesOf_eq_nil_iff {nodes : List (String × Node)} {id : String} :
    nodesOf id nodes = [] ↔ id ∉ idsOf nodes := by
  rw [nodesOf, List.map_eq_nil_iff, List.filter_eq_nil_iff, idsOf, List.mem_eraseDups]
  constructor
  · intro h hmem
    obtain ⟨e, he, rfl⟩ := List.mem_map.mp hmem
    exact h e he (decide_eq_true rfl)
  · intro h e he heq
    exact h (of_decide_eq_true heq ▸ List.mem_map_of_mem he)

theorem keys_groupById (nodes : List (String × Node)) : (groupById nodes).keys = idsOf nodes := by
  induction nodes using List.reverseRecOn with
  | nil => rfl
  | append_singleton nodes e ih => rw [groupById_append, Table.keys_insert, idsOf_append, ih]

/-- The group of an id holds the nodes with this id. -/
theorem get?_groupById (nodes : List (String × Node)) (id : String) :
    ((groupById nodes).get? id).getD [] = nodesOf id nodes := by
  induction nodes using List.reverseRecOn with
  | nil => rfl
  | append_singleton nodes e ih =>
      obtain ⟨id', n⟩ := e
      rw [groupById_append, Table.get?_insert, nodesOf_append, nodesOf_singleton]
      by_cases h : id' = id
      · rw [if_pos h, if_pos h, h, ih, Option.getD_some]
      · rw [if_neg h, if_neg h, ih, List.append_nil]

/-- The groups are the ids in the order of their first occurrence, each with its nodes in order. -/
theorem entries_groupById (nodes : List (String × Node)) :
    (groupById nodes).entries = (idsOf nodes).map fun id => (id, nodesOf id nodes) := by
  rw [← keys_groupById]
  refine Table.entries_eq_map ?_ fun id hid => ?_
  · rw [keys_groupById]
    exact nodup_idsOf nodes
  · obtain ⟨group, hgroup⟩ := Table.exists_get?_of_mem_keys hid
    rw [hgroup, ← get?_groupById, hgroup, Option.getD_some]

/-- The selection of the groups: ids point to their places, and at the place of an id are its nodes. -/
theorem messageSelect_groupById (nodes : List (String × Node)) :
    messageSelect (groupById nodes) =
      .messageIdSelect ⟨(idsOf nodes).zipIdx⟩
        ((idsOf nodes).map fun id => selectNode (nodesOf id nodes)) := by
  rw [messageSelect, keys_groupById, Table.values, entries_groupById, List.map_map, List.map_map]
  rfl

/-- The selection of some rules, if there are any. -/
def selectNode? : List Node → Option Node
  | [] => none
  | nodes => some (selectNode nodes)

/-- The index of the selection leads from an id to the nodes with the id. -/
theorem lookup_groups (nodes : List (String × Node)) (id : String) :
    ((Table.mk (idsOf nodes).zipIdx).get? id).bind (fun i =>
      ((idsOf nodes).map fun id => selectNode (nodesOf id nodes))[i]?) = selectNode? (nodesOf id nodes) := by
  rw [Table.get?, Table.lookup_zipIdx]
  by_cases hmem : id ∈ idsOf nodes
  · have hidx : (idsOf nodes)[(idsOf nodes).idxOf id]? = some id := List.getElem?_idxOf hmem
    have hne : nodesOf id nodes ≠ [] := fun h => nodesOf_eq_nil_iff.mp h hmem
    rw [if_pos hmem, Option.bind_some, Nat.zero_add, List.getElem?_map, hidx, Option.map_some]
    cases hgroup : nodesOf id nodes with
    | nil => exact absurd hgroup hne
    | cons n rest => rfl
  · rw [if_neg hmem, nodesOf_eq_nil_iff.mpr hmem]
    rfl

end LogRules.Assembly
