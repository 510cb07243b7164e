import ReadexPtf.Lib.Strings
import Mathlib

/-! Property trees: nodes with a text and with named children in an order, reached by paths
with dots between the names. -/
namespace ReadexPtf

inductive PTree where
  | node (data : String) (children : List (String × PTree))

namespace PTree

def data : PTree → String
  | node data _ => data

def children : PTree → List (String × PTree)
  | node _ children => children

def empty : PTree := node "" []

/-- `push_back`, and `add_child` for a path that is one name. -/
def pushBack (t : PTree) (key : String) (child : PTree) : PTree :=
  node t.data (t.children ++ [(key, child)])

/-- The first child of a name. -/
def find (t : PTree) (key : String) : Option PTree := t.children.lookup key

/-- The first child of a name is replaced, or there is a new one. -/
def setFirst (key : String) (child : PTree) : List (String × PTree) → List (String × PTree)
  | [] => [(key, child)]
  | c :: cs => if c.1 = key then (key, child) :: cs else c :: setFirst key child cs

/-- The names of a path. -/
def fragments (path : String) : List String :=
  if path = "" then [] else (path.toList.splitOn '.').map String.ofList

def putAt : List String → String → PTree → PTree
  | [], data, t => node data t.children
  | key :: keys, data, t =>
    node t.data (setFirst key (putAt keys data ((t.find key).getD empty)) t.children)

/-- `put`: the nodes on the path that are not there are made. -/
def put (t : PTree) (path data : String) : PTree := putAt (fragments path) data t

def childAt : List String → PTree → Option PTree
  | [], t => some t
  | key :: keys, t => (t.find key).bind (childAt keys)

/-- `get_child`; the exception is `none`. -/
def getChild (t : PTree) (path : String) : Option PTree := childAt (fragments path) t

/-- `get`: the text of a node as a value. -/
def get {β : Type} (t : PTree) (path : String) (read : String → Option β) : Option β :=
  (t.getChild path).bind fun child => read child.data

@[simp] theorem data_node (data : String) (children : List (String × PTree)) :
    (node data children).data = data := rfl

@[simp] theorem children_node (data : String) (children : List (String × PTree)) :
    (node data children).children = children := rfl

/-- A path without a dot is one name. -/
theorem fragments_of_plain {path : String} (hne : path ≠ "") (h : '.' ∉ path.toList) :
    fragments path = [path] := by
  rw [fragments, if_neg hne, List.splitOn_eq_singleton h, List.map_singleton, String.ofList_toList]

theorem getChild_of_plain {path : String} (hne : path ≠ "") (h : '.' ∉ path.toList) (t : PTree) :
    t.getChild path = t.find path := by
  rw [getChild, fragments_of_plain hne h, childAt]
  cases t.find path <;> rfl

theorem get_of_plain {β : Type} {path : String} (hne : path ≠ "") (h : '.' ∉ path.toList)
    (t : PTree) (read : String → Option β) :
    t.get path read = (t.find path).bind fun child => read child.data := by
  rw [get, getChild_of_plain hne h]

/-- The first name of a path has no dot. -/
theorem head_fragments {path key : String} {keys : List String}
    (h : fragments path = key :: keys) : '.' ∉ key.toList := by
  rw [fragments] at h
  split_ifs at h
  have hmem : key ∈ (path.toList.splitOn '.').map String.ofList := h ▸ List.mem_cons_self
  obtain ⟨part, hpart, rfl⟩ := List.mem_map.mp hmem
  rw [String.toList_ofList]
  exact notMem_of_mem_splitOn hpart

theorem setFirst_new {key : String} {cs : List (String × PTree)}
    (h : key ∉ cs.map Prod.fst) (child : PTree) : setFirst key child cs = cs ++ [(key, child)] := by
  induction cs with
  | nil => rfl
  | cons c cs ih =>
    rw [List.map_cons, List.mem_cons, not_or] at h
    rw [setFirst, if_neg fun heq => h.1 heq.symm, ih h.2, List.cons_append]

theorem key_of_mem_setFirst {key key' : String} {child : PTree} {cs : List (String × PTree)}
    (h : key' ∈ (setFirst key child cs).map Prod.fst) : key' = key ∨ key' ∈ cs.map Prod.fst := by
  induction cs with
  | nil => simpa [setFirst] using h
  | cons c cs ih =>
    rw [setFirst] at h
    split_ifs at h with hkey
    · rw [List.map_cons, List.mem_cons] at h
      exact h.imp_right (List.mem_cons_of_mem _)
    · rw [List.map_cons, List.mem_cons] at h
      rw [List.map_cons, List.mem_cons]
      cases h with
      | inl hself => exact .inr (.inl hself)
      | inr hrest => exact (ih hrest).imp_right .inr

/-- A child after `put` was there before, or starts the path. -/
theorem key_of_put {t : PTree} {path data key : String}
    (h : key ∈ (t.put path data).children.map Prod.fst) :
    (∃ keys, fragments path = key :: keys) ∨ key ∈ t.children.map Prod.fst := by
  rw [put] at h
  cases hpath : fragments path with
  | nil =>
    rw [hpath] at h
    exact .inr h
  | cons first keys =>
    rw [hpath] at h
    exact (key_of_mem_setFirst h).imp_left fun heq => ⟨keys, by rw [heq]⟩

/-- A new name at the top. -/
theorem put_new {t : PTree} {key : String} (hne : key ≠ "") (hplain : '.' ∉ key.toList)
    (hnew : key ∉ t.children.map Prod.fst) (data : String) :
    t.put key data = t.pushBack key (node data []) := by
  have hnone : t.find key = none := by
    rw [find, List.lookup_eq_none_iff]
    intro c hc
    rw [bne_iff_ne]
    exact fun heq => hnew (List.mem_map.mpr ⟨c, hc, heq.symm⟩)
  rw [put, fragments_of_plain hne hplain, putAt, hnone, Option.getD_none, setFirst_new hnew]
  rfl

/-- New names at the top, one after the other. -/
theorem puts_new (es : List (String × String)) (data : String) (cs : List (String × PTree))
    (hplain : ∀ e ∈ es, e.1 ≠ "" ∧ '.' ∉ e.1.toList)
    (hnew : (cs.map Prod.fst ++ es.map Prod.fst).Nodup) :
    es.foldl (fun t e => t.put e.1 e.2) (node data cs) =
      node data (cs ++ es.map fun e => (e.1, node e.2 [])) := by
  induction es generalizing cs with
  | nil => rw [List.foldl_nil, List.map_nil, List.append_nil]
  | cons e es ih =>
    rw [List.forall_mem_cons] at hplain
    have hkey : e.1 ∉ cs.map Prod.fst := by
      rw [List.map_cons, List.nodup_append] at hnew
      exact fun hmem => hnew.2.2 _ hmem _ List.mem_cons_self rfl
    have hnext : ((cs ++ [(e.1, node e.2 [])]).map Prod.fst ++ es.map Prod.fst).Nodup := by
      simpa using hnew
    have hput := @put_new (node data cs) e.1 hplain.1.1 hplain.1.2 hkey e.2
    rw [List.foldl_cons, hput]
    refine (ih _ hplain.2 hnext).trans ?_
    rw [List.map_cons, List.append_assoc, List.singleton_append]

theorem key_of_puts (es : List (String × String)) (t : PTree) {key : String}
    (h : key ∈ (es.foldl (fun t e => t.put e.1 e.2) t).children.map Prod.fst) :
    (∃ e ∈ es, ∃ keys, fragments e.1 = key :: keys) ∨ key ∈ t.children.map Prod.fst := by
  induction es generalizing t with
  | nil => exact .inr h
  | cons e es ih =>
    rcases ih (t.put e.1 e.2) h with ⟨e', he', hkeys⟩ | hold
    · exact .inl ⟨e', List.mem_cons_of_mem e he', hkeys⟩
    · exact (key_of_put hold).imp_left fun hkeys => ⟨e, List.mem_cons_self, hkeys⟩

end PTree
end ReadexPtf
