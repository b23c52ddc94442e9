import Mathlib.Data.List.Basic
import Mathlib.Data.List.Nodup

/-! The coordinator, as far as the balanced consumer uses it.

ZooKeeper is a tree of nodes. The consumer reads and writes two directories of
it: the group's participants `/consumers/<group>/ids`, whose children are member
ids with the topic name as value, and the topic's owners
`/consumers/<group>/owners/<topic>`, whose children are `'<leader>-<id>'` with
the owning member id as value. Every node the consumer creates is ephemeral:
it belongs to the session that created it and vanishes when that session ends.

A directory is a list of named nodes in which no name occurs twice; `create`
refuses a name that exists (`NodeExistsError`) and `delete` one that does not
(`NoNodeError`). Each operation is one atomic step of the coordinator. -/
namespace Pykafka

/-- An ephemeral node: its value and the session that owns it. -/
structure Node where
  value : String
  session : Nat
deriving DecidableEq, Repr

/-- The children of one directory, by name. -/
structure Dir where
  entries : List (String × Node)
  nodup : (entries.map Prod.fst).Nodup

namespace Dir

def empty : Dir := ⟨[], List.nodup_nil⟩

/-- `get_children`. -/
def children (d : Dir) : List String := d.entries.map Prod.fst

/-- `get`, with `none` for `NoNodeError`. -/
def get (d : Dir) (name : String) : Option Node :=
  (d.entries.find? (fun e => e.1 == name)).map Prod.snd

/-- `create`, with `none` for `NodeExistsError`. -/
def create (d : Dir) (name : String) (node : Node) : Option Dir :=
  if h : name ∈ d.children then none
  else some ⟨(name, node) :: d.entries, List.nodup_cons.mpr ⟨h, d.nodup⟩⟩

/-- `delete`, with `none` for `NoNodeError`. -/
def delete (d : Dir) (name : String) : Option Dir :=
  if name ∈ d.children then
    some ⟨d.entries.filter (fun e => e.1 != name), List.Nodup.sublist
      (List.Sublist.map _ (List.filter_sublist _)) d.nodup⟩
  else none

/-- The end of a session: its ephemeral nodes vanish. -/
def expire (d : Dir) (session : Nat) : Dir :=
  ⟨d.entries.filter (fun e => e.2.session != session), List.Nodup.sublist
    (List.Sublist.map _ (List.filter_sublist _)) d.nodup⟩

theorem get_eq_some {d : Dir} {name : String} {node : Node} :
    d.get name = some node ↔ (name, node) ∈ d.entries := by
  unfold get
  constructor
  · intro h
    obtain ⟨e, he, rfl⟩ := Option.map_eq_some'.mp h
    have := List.find?_some he
    simp only [beq_iff_eq] at this
    rw [← this]
    exact List.mem_of_find?_eq_some he
  · intro h
    cases he : d.entries.find? (fun e => e.1 == name) with
    | none => simpa using List.find?_eq_none.mp he _ h
    | some e =>
      have hname : e.1 = name := by simpa using List.find?_some he
      have hmem := List.mem_of_find?_eq_some he
      have : e = (name, node) :=
        List.inj_on_of_nodup_map d.nodup hmem h hname
      simp [this]

theorem mem_children {d : Dir} {name : String} :
    name ∈ d.children ↔ ∃ node, (name, node) ∈ d.entries := by
  simp [children]

theorem get_eq_none {d : Dir} {name : String} : d.get name = none ↔ name ∉ d.children := by
  rw [mem_children, not_exists]
  constructor
  · intro h node hn
    rw [get_eq_some.mpr hn] at h
    cases h
  · intro h
    cases hg : d.get name with
    | none => rfl
    | some node => exact absurd (get_eq_some.mp hg) (h node)

theorem create_eq_some {d d' : Dir} {name : String} {node : Node} :
    d.create name node = some d' ↔ name ∉ d.children ∧ d'.entries = (name, node) :: d.entries := by
  unfold create
  split
  · simp_all
  · rename_i h
    refine ⟨fun h' => ?_, fun ⟨_, he⟩ => ?_⟩
    · cases h'
      exact ⟨h, rfl⟩
    · cases d'
      simp only at he
      subst he
      rfl

theorem create_eq_none {d : Dir} {name : String} {node : Node} :
    d.create name node = none ↔ name ∈ d.children := by
  unfold create
  split <;> simp_all

theorem delete_eq_some {d d' : Dir} {name : String} :
    d.delete name = some d' ↔
      name ∈ d.children ∧ d'.entries = d.entries.filter (fun e => e.1 != name) := by
  unfold delete
  split
  · rename_i h
    refine ⟨fun h' => ?_, fun ⟨_, he⟩ => ?_⟩
    · cases h'
      exact ⟨h, rfl⟩
    · cases d'
      simp only at he
      subst he
      rfl
  · simp_all

theorem delete_eq_none {d : Dir} {name : String} : d.delete name = none ↔ name ∉ d.children := by
  unfold delete
  split <;> simp_all

@[simp] theorem expire_entries (d : Dir) (session : Nat) :
    (d.expire session).entries = d.entries.filter (fun e => e.2.session != session) := rfl

theorem mem_create {d d' : Dir} {name : String} {node : Node} (h : d.create name node = some d')
    {e : String × Node} : e ∈ d'.entries ↔ e = (name, node) ∨ e ∈ d.entries := by
  rw [(create_eq_some.mp h).2, List.mem_cons]

theorem mem_delete {d d' : Dir} {name : String} (h : d.delete name = some d') {e : String × Node} :
    e ∈ d'.entries ↔ e ∈ d.entries ∧ e.1 ≠ name := by
  simp [(delete_eq_some.mp h).2]

theorem mem_expire {d : Dir} {session : Nat} {e : String × Node} :
    e ∈ (d.expire session).entries ↔ e ∈ d.entries ∧ e.2.session ≠ session := by
  simp

theorem children_create {d d' : Dir} {name : String} {node : Node} (h : d.create name node = some d') :
    d'.children = name :: d.children := by
  simp [children, (create_eq_some.mp h).2]

theorem children_delete_subset {d d' : Dir} {name : String} (h : d.delete name = some d') :
    d'.children ⊆ d.children := fun _ hn =>
  have ⟨node, hn⟩ := mem_children.mp hn
  mem_children.mpr ⟨node, ((mem_delete h).mp hn).1⟩

theorem children_expire_subset (d : Dir) (session : Nat) : (d.expire session).children ⊆ d.children :=
  fun _ hn =>
  have ⟨node, hn⟩ := mem_children.mp hn
  mem_children.mpr ⟨node, (mem_expire.mp hn).1⟩

theorem get_create {d d' : Dir} {name : String} {node : Node} (h : d.create name node = some d')
    (n : String) : d'.get n = if n = name then some node else d.get n := by
  split
  · subst_vars
    exact get_eq_some.mpr ((mem_create h).mpr (.inl rfl))
  · rename_i hn
    cases hg : d.get n with
    | none =>
      refine get_eq_none.mpr ?_
      rw [children_create h, List.mem_cons, not_or]
      exact ⟨hn, get_eq_none.mp hg⟩
    | some node' => exact get_eq_some.mpr ((mem_create h).mpr (.inr (get_eq_some.mp hg)))

theorem get_delete {d d' : Dir} {name : String} (h : d.delete name = some d') (n : String) :
    d'.get n = if n = name then none else d.get n := by
  split
  · subst_vars
    refine get_eq_none.mpr fun hm => ?_
    obtain ⟨node, hm⟩ := mem_children.mp hm
    exact ((mem_delete h).mp hm).2 rfl
  · rename_i hn
    cases hg : d.get n with
    | none =>
      refine get_eq_none.mpr fun hm => ?_
      obtain ⟨node, hm⟩ := mem_children.mp hm
      exact get_eq_none.mp hg (mem_children.mpr ⟨node, ((mem_delete h).mp hm).1⟩)
    | some node' => exact get_eq_some.mpr ((mem_delete h).mpr ⟨get_eq_some.mp hg, hn⟩)

theorem get_of_create {d d' : Dir} {name n : String} {node v : Node} (h : d.create name node = some d')
    (hg : d.get n = some v) : d'.get n = some v :=
  get_eq_some.mpr ((mem_create h).mpr (.inr (get_eq_some.mp hg)))

theorem get_of_delete {d d' : Dir} {name n : String} {v : Node} (h : d.delete name = some d')
    (hne : n ≠ name) (hg : d.get n = some v) : d'.get n = some v :=
  get_eq_some.mpr ((mem_delete h).mpr ⟨get_eq_some.mp hg, hne⟩)

theorem get_of_expire {d : Dir} {session : Nat} {n : String} {v : Node} (hg : d.get n = some v)
    (hs : v.session ≠ session) : (d.expire session).get n = some v :=
  get_eq_some.mpr (mem_expire.mpr ⟨get_eq_some.mp hg, hs⟩)

theorem get_expire (d : Dir) (session : Nat) (n : String) :
    (d.expire session).get n = (d.get n).filter (·.session != session) := by
  cases hg : d.get n with
  | none =>
    exact get_eq_none.mpr fun hm => get_eq_none.mp hg (children_expire_subset d session hm)
  | some node =>
    by_cases hs : node.session = session
    · simp only [Option.filter_some, hs, bne_self_eq_false, Bool.false_eq_true, if_false]
      refine get_eq_none.mpr fun hm => ?_
      obtain ⟨node', hm⟩ := mem_children.mp hm
      have h₁ := mem_expire.mp hm
      have : some node' = some node := (get_eq_some.mpr h₁.1).symm.trans hg
      cases this
      exact h₁.2 hs
    · simp only [Option.filter_some, bne_iff_ne, ne_eq, hs, not_false_eq_true, if_true]
      exact get_eq_some.mpr (mem_expire.mpr ⟨get_eq_some.mp hg, hs⟩)

end Dir

/-- The two directories of the coordinator the consumer works in. -/
structure Store where
  /-- The children of `/consumers/<group>/ids`: participant records. -/
  ids : Dir
  /-- The children of `/consumers/<group>/owners/<topic>`: ownership records. -/
  owners : Dir

namespace Store

def empty : Store := ⟨Dir.empty, Dir.empty⟩

/-- The end of a session, in both directories. -/
def expire (st : Store) (session : Nat) : Store :=
  ⟨st.ids.expire session, st.owners.expire session⟩

end Store

end Pykafka
