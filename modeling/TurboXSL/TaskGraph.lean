import Mathlib.Data.List.Perm.Subperm
import Mathlib.Data.Nat.Digits.Defs
import TurboXSL.DictionaryRuns
import TurboXSL.Library.FirstOccurrences

namespace TurboXSL
namespace TaskGraph

open Library

/-!
# The graph of tasks

`template_task_graph.c`: threads record an edge for every task that they start,
with a new vertex for the task.  The vertices are numbered afterwards: the first
one of every key stands for all of them, edges are led to it, and the first ones
are linked in a list.  The links of an earlier numbering are still there when
the vertices are numbered again.
-/

/-- `template_task_graph_vertex_t` -/
structure Vertex where
  id : Int := 0
  key : Bytes
  color : Option Bytes := none
  next : Option Nat := none

/-- `template_task_graph_edge_t`; the list of edges is a list. -/
structure Edge where
  label : Bytes
  source : Nat
  target : Nat

/-- `template_task_graph_t`, with the memory of its vertices and the vertex that
every thread has set. -/
structure Graph where
  memory : Arena Vertex
  edges : List Edge
  current : Nat → Option Nat

/-- `template_task_graph_create` -/
def templateTaskGraphCreate : Graph where
  memory := { size := 0, get := fun _ => { key := [] } }
  edges := []
  current := fun _ => none

/-- `template_task_graph_edge_name` of an instruction with this name and this
attribute `t:fork`. -/
def templateTaskGraphEdgeName (name : Bytes) (fork : Option Bytes) : Bytes :=
  match fork with
  | none => name
  | some fork => name ++ lit " [" ++ fork ++ lit "]"

/-! ## Numbering -/

/-- The variables of `template_task_graph_vertexes`. -/
structure Numbering where
  memory : Arena Vertex
  id : Int
  head : Option Nat
  tail : Option Nat
  vertexes : DictMemory Nat

/-- `id++` of an `int`, which is undefined for the greatest one. -/
def increment (id : Int) : Option Int := if id < 2147483647 then some (id + 1) else none

/-- What is done with either end of an edge: the vertex that its key has, which
is the end itself where the key is new. -/
def findVertex (state : Numbering) (vertex : Nat) : Option (Numbering × Nat) := do
  let key := (state.memory.get vertex).key
  match ← state.vertexes.dictFind key with
  | some found => some (state, found)
  | none => do
      let (vertexes, _) ← state.vertexes.dictAdd key vertex
      let id ← increment state.id
      let memory := state.memory.modify vertex fun cell => { cell with id := state.id }
      match state.head with
      | none =>
          some ({ memory := memory, id := id, head := some vertex, tail := some vertex,
                  vertexes := vertexes }, vertex)
      | some head => do
          let tail ← state.tail
          let memory := memory.modify tail fun cell => { cell with next := some vertex }
          some ({ memory := memory, id := id, head := some head, tail := some vertex,
                  vertexes := vertexes }, vertex)

/-- The loop over the edges. -/
def numberEdges : Numbering → List Edge → Option (Numbering × List Edge)
  | state, [] => some (state, [])
  | state, edge :: rest => do
      let (state, source) ← findVertex state edge.source
      let (state, target) ← findVertex state edge.target
      let (state, edges) ← numberEdges state rest
      some (state, { edge with source := source, target := target } :: edges)

/-- The variables in front of the loop. -/
def Numbering.initial (memory : Arena Vertex) : Numbering where
  memory := memory
  id := 1
  head := none
  tail := none
  vertexes := DictMemory.dictNew 128

/-- `template_task_graph_vertexes` -/
def templateTaskGraphVertexes (graph : Graph) : Option (Graph × Option Nat) := do
  let (state, edges) ← numberEdges (.initial graph.memory) graph.edges
  some ({ graph with memory := state.memory, edges := edges }, state.head)

/-! ## Recording -/

section Recording

-- what `sprintf` writes for a pointer is left to the C library
variable (printPointer : Nat → Bytes)

/-- `template_task_graph_vertex_key` -/
def templateTaskGraphVertexKey (task : Nat) : Bytes := printPointer task

/-- `template_task_graph_set_current` in a thread. -/
def templateTaskGraphSetCurrent (graph : Graph) (thread task : Nat) : Graph :=
  { graph with
    memory := graph.memory.alloc { key := templateTaskGraphVertexKey printPointer task },
    current := Function.update graph.current thread (some graph.memory.size) }

/-- `template_task_graph_add` in a thread. -/
def templateTaskGraphAdd (graph : Graph) (thread : Nat) (name : Bytes) (fork : Option Bytes)
    (task : Nat) (mode : Int) : Graph :=
  match graph.current thread with
  | none => graph
  | some source =>
      let color := if mode = 1 then some (lit "green") else if mode = 0 then some (lit "red") else none
      let target : Vertex := { key := templateTaskGraphVertexKey printPointer task, color := color }
      { graph with
        memory := graph.memory.alloc target,
        edges := graph.edges ++
          [{ label := templateTaskGraphEdgeName name fork, source := source,
             target := graph.memory.size }] }

/-- What threads call. -/
inductive GraphCall where
  | setCurrent (thread task : Nat)
  | add (thread : Nat) (name : Bytes) (fork : Option Bytes) (task : Nat) (mode : Int)
  | vertexes

def GraphCall.apply (graph : Graph) : GraphCall → Option Graph
  | .setCurrent thread task => some (templateTaskGraphSetCurrent printPointer graph thread task)
  | .add thread name fork task mode =>
      some (templateTaskGraphAdd printPointer graph thread name fork task mode)
  | .vertexes => (templateTaskGraphVertexes graph).map Prod.fst

/-- The graph after calls, one after the other. -/
def run (graph : Graph) (calls : List GraphCall) : Option Graph :=
  calls.foldlM (GraphCall.apply printPointer) graph

/-- The label of an edge and the keys of its ends. -/
structure Entry where
  label : Bytes
  source : Bytes
  target : Bytes

/-- What calls record, where threads have set these keys before. -/
def recorded (current : Nat → Option Bytes) : List GraphCall → List Entry
  | [] => []
  | .setCurrent thread task :: rest =>
      recorded (Function.update current thread (some (printPointer task))) rest
  | .add thread name fork task _ :: rest =>
      match current thread with
      | none => recorded current rest
      | some source =>
          { label := templateTaskGraphEdgeName name fork, source := source,
            target := printPointer task } :: recorded current rest
  | .vertexes :: rest => recorded current rest

end Recording

/-- The keys of the ends of edges, in order. -/
def keys (entries : List Entry) : List Bytes := entries.flatMap fun entry => [entry.source, entry.target]

/-- What an edge says, whichever vertices stand for its ends. -/
def Edge.entry (memory : Arena Vertex) (edge : Edge) : Entry where
  label := edge.label
  source := (memory.get edge.source).key
  target := (memory.get edge.target).key

/-- The ends of edges, in order. -/
def ends (edges : List Edge) : List Nat := edges.flatMap fun edge => [edge.source, edge.target]

/-- The list that begins at `head` has one vertex for every key of the entries,
numbered in the order in which the keys come first, and the edges lead from
vertices of the list to vertices of the list as the entries say. -/
structure Numbered (graph : Graph) (head : Option Nat) (entries : List Entry) : Prop where
  listed : Exists fun list : List Nat =>
    Chain (fun vertex => (graph.memory.get vertex).next) head list ∧
    list.map (fun vertex => (graph.memory.get vertex).key) = (keys entries).eraseDups ∧
    list.map (fun vertex => (graph.memory.get vertex).id) =
      (List.range list.length).map (fun index : Nat => (index : Int) + 1) ∧
    ∀ edge ∈ graph.edges, edge.source ∈ list ∧ edge.target ∈ list
  edges : graph.edges.map (Edge.entry graph.memory) = entries

/-! ## The table of keys -/

/-- The table has `count` entries and stands for this map. -/
def Serves (table : DictMemory Nat) (map : Bytes → Option Nat) (count : Nat) : Prop :=
  Exists fun dict : XMLDict Nat => LiesIn table dict ∧ StandsFor dict map ∧
    dict.entries.length = count ∧ dict.allocated ≤ count + 228

theorem serves_new : Serves (DictMemory.dictNew 128) (fun _ => none) 0 :=
  ⟨_, liesIn_new 128, standsFor_new _, rfl, by decide⟩

section Tables

variable {table : DictMemory Nat} {map : Bytes → Option Nat} {count : Nat}

theorem Serves.dictFind (serves : Serves table map count) (key : Bytes) :
    table.dictFind key = some (map key) := by
  rcases serves with ⟨dict, lies, ⟨lawful, looked⟩, -, -⟩
  apply lies.dictFind
  rw [dictFind_eq lawful, looked]

/-- A new key is entered; the capacity is far from where it wraps around. -/
theorem Serves.dictAdd (serves : Serves table map count) (few : count < 2147483648) {key : Bytes}
    (new : map key = none) (vertex : Nat) :
    Exists fun after => table.dictAdd key vertex = some (after, true) ∧
      Serves after (Function.update map key (some vertex)) (count + 1) := by
  rcases serves with ⟨dict, lies, stands, counted, allocated⟩
  have served : mapStep map (.add key vertex) =
      some (Function.update map key (some vertex), .added true) := by
    rw [mapStep, new]
    rfl
  rcases dict_refines_map dict map _ _ _ stands served with ⟨next, taken, after⟩
  rcases Option.map_eq_some_iff.mp taken with ⟨⟨grown, absent⟩, added, same⟩
  rcases Prod.mk.inj same with ⟨rfl, answer⟩
  cases answer
  rcases dictAdd_cases added with ⟨old, -, -, impossible⟩ | ⟨-, pushed, -⟩
  · cases impossible
  · have length : grown.entries.length = count + 1 := by
      rw [pushed, ← counted, XMLDict.push, XMLDict.grown]
      split
      · exact List.length_append
      · exact List.length_append
    have capacity : grown.allocated ≤ count + 1 + 228 := by
      rw [pushed, XMLDict.push, XMLDict.grown]
      dsimp only
      split
      next full =>
          rw [counted] at full
          dsimp only
          omega
      next => omega
    have room : grown.allocated < 2 ^ 32 := by omega
    rcases memory_refines_dict table dict _ _ _ lies (within_eq_some_iff.mpr ⟨taken, room⟩) with
      ⟨memory, done, there⟩
    rcases Option.map_eq_some_iff.mp done with ⟨⟨reached, absent⟩, entered, same⟩
    rcases Prod.mk.inj same with ⟨rfl, answer⟩
    cases answer
    exact ⟨reached, entered, grown, there, after, length, capacity⟩

end Tables

/-! ## One end of an edge -/

/-- Vertices that follow each other are linked, whatever comes behind the last. -/
def Joined (memory : Arena Vertex) (list : List Nat) : Prop :=
  ∀ front vertex other back, list = front ++ vertex :: other :: back →
    (memory.get vertex).next = some other

theorem chain_of_joined {memory : Arena Vertex} {list : List Nat} (joined : Joined memory list)
    (ends : ∀ last, list.getLast? = some last → (memory.get last).next = none) :
    Chain (fun vertex => (memory.get vertex).next) list.head? list := by
  induction list with
  | nil => exact .nil
  | cons vertex rest inductionHypothesis =>
      apply Chain.cons
      cases rest with
      | nil =>
          rw [ends vertex rfl]
          exact .nil
      | cons other rest =>
          rw [joined [] vertex other rest rfl]
          refine inductionHypothesis (fun front first second back split => ?_) ends
          exact joined (vertex :: front) first second back (congrArg (vertex :: ·) split)

/-- The key of a vertex. -/
abbrev keyIn (memory : Arena Vertex) (vertex : Nat) : Bytes := (memory.get vertex).key

/-- The vertex of a list that has a key. -/
def vertexOf (memory : Arena Vertex) (list : List Nat) (key : Bytes) : Option Nat :=
  list.find? fun vertex => keyIn memory vertex = key

/-- What holds in the loop when the vertices of `list` have been numbered: they
are linked and in the table, and all else is as it was at the start. -/
structure Walked (start : Arena Vertex) (list : List Nat) (state : Numbering) : Prop where
  table : Serves state.vertexes (vertexOf start list) list.length
  id : state.id = list.length + 1
  few : list.length < 2147483647
  head : state.head = list.head?
  tail : state.tail = list.getLast?
  size : state.memory.size = start.size
  kept : ∀ vertex, keyIn state.memory vertex = keyIn start vertex
  ids : list.map (fun vertex => (state.memory.get vertex).id) =
    (List.range list.length).map fun index : Nat => (index : Int) + 1
  joined : Joined state.memory list
  rest : ∀ vertex, (vertex ∈ list → list.getLast? = some vertex) →
    (state.memory.get vertex).next = (start.get vertex).next

theorem walked_nil (start : Arena Vertex) : Walked start [] (.initial start) where
  table := serves_new
  id := rfl
  few := show 0 < 2147483647 by decide
  head := rfl
  tail := rfl
  size := rfl
  kept := fun _ => rfl
  ids := rfl
  joined := fun front _ _ _ split => by cases front <;> cases split
  rest := fun _ _ => rfl

section Step

variable {start : Arena Vertex} {list : List Nat} {state : Numbering} {vertex : Nat}

/-- A key that the list has. -/
theorem Walked.known (walked : Walked start list state)
    (old : keyIn start vertex ∈ list.map (keyIn start)) :
    Exists fun found => findVertex state vertex = some (state, found) ∧
      found ∈ list ∧ keyIn start found = keyIn start vertex := by
  rcases List.mem_map.mp old with ⟨first, member, same⟩
  cases searched : vertexOf start list (keyIn start vertex) with
  | none =>
      have different := List.find?_eq_none.mp searched first member
      exact absurd (decide_eq_true same) different
  | some found =>
      have key : (state.memory.get vertex).key = keyIn start vertex := walked.kept vertex
      have equal := List.find?_some searched
      refine ⟨found, ?_, List.mem_of_find?_eq_some searched, of_decide_eq_true equal⟩
      unfold findVertex
      dsimp only
      rw [key, walked.table.dictFind, searched]
      rfl

/-- The table with one more vertex. -/
theorem vertexOf_concat (new : keyIn start vertex ∉ list.map (keyIn start)) :
    vertexOf start (list ++ [vertex]) =
      Function.update (vertexOf start list) (keyIn start vertex) (some vertex) := by
  funext key
  rw [vertexOf, List.find?_append]
  by_cases same : key = keyIn start vertex
  · have missing : (list.find? fun other => keyIn start other = key) = none := by
      refine List.find?_eq_none.mpr fun other member equal => new ?_
      rw [← same, ← of_decide_eq_true equal]
      exact List.mem_map_of_mem member
    rw [missing, same, Function.update_self, List.find?_singleton, if_pos (decide_eq_true rfl)]
    rfl
  · rw [Function.update_of_ne same, List.find?_singleton,
      if_neg fun equal => same (of_decide_eq_true equal).symm]
    exact Option.or_none

/-- The last of different vertices is followed by none of them. -/
theorem getLast_ne (distinct : list.Nodup) {front back : List Nat} {other : Nat}
    (split : list = front ++ vertex :: other :: back) : list.getLast? ≠ some vertex := by
  intro atEnd
  rw [split, List.getLast?_append, List.getLast?_cons_cons] at atEnd
  rw [split] at distinct
  have later : vertex ∈ other :: back := by
    apply List.mem_of_getLast?
    rwa [List.getLast?_cons, Option.some_or, ← List.getLast?_cons] at atEnd
  exact (List.nodup_cons.mp (List.nodup_append.mp distinct).2.1).1 later

/-- A vertex behind the list, with the next number. -/
theorem Walked.push (walked : Walked start list state) (distinct : list.Nodup)
    (new : keyIn start vertex ∉ list.map (keyIn start)) (room : list.length + 1 < 2147483647)
    {table : DictMemory Nat} (entered : Serves table
      (Function.update (vertexOf start list) (keyIn start vertex) (some vertex)) (list.length + 1))
    (memory : Arena Vertex) (size : memory.size = state.memory.size)
    (kept : ∀ other, keyIn memory other = keyIn state.memory other)
    (own : (memory.get vertex).id = state.id)
    (ids : ∀ other, other ≠ vertex → (memory.get other).id = (state.memory.get other).id)
    (link : ∀ last, list.getLast? = some last → (memory.get last).next = some vertex)
    (links : ∀ other, list.getLast? ≠ some other →
      (memory.get other).next = (state.memory.get other).next) :
    Walked start (list ++ [vertex])
      { memory := memory, id := state.id + 1, head := (list ++ [vertex]).head?,
        tail := some vertex, vertexes := table } := by
  have length : (list ++ [vertex]).length = list.length + 1 := List.length_append
  have apart : ∀ other ∈ list, other ≠ vertex := by
    rintro other member rfl
    exact new (List.mem_map_of_mem member)
  constructor
  case table => rwa [vertexOf_concat new, length]
  case id =>
    rw [length, walked.id]
    rfl
  case few => rwa [length]
  case head => rfl
  case tail => rw [List.getLast?_concat]
  case size => exact size.trans walked.size
  case kept => exact fun other => (kept other).trans (walked.kept other)
  case ids =>
    have earlier : list.map (fun vertex => (memory.get vertex).id) =
        list.map fun vertex => (state.memory.get vertex).id :=
      List.map_congr_left fun other member => ids other (apart other member)
    rw [List.map_append, List.map_singleton, length, List.range_succ, List.map_append,
      List.map_singleton, earlier, walked.ids, own, walked.id]
  case joined =>
    intro front first second back split
    rcases List.eq_nil_or_concat back with rfl | ⟨back, last, rfl⟩
    · have whole : list ++ [vertex] = (front ++ [first]) ++ [second] := by
        rw [split, List.append_assoc]
        rfl
      rcases List.append_inj' whole rfl with ⟨rfl, same⟩
      cases same
      exact link first List.getLast?_concat
    · have whole : list ++ [vertex] = (front ++ first :: second :: back) ++ [last] := by
        rw [split, List.concat_eq_append, List.append_assoc]
        rfl
      rcases List.append_inj' whole rfl with ⟨rfl, -⟩
      rw [links first (getLast_ne distinct rfl)]
      exact walked.joined front first second back rfl
  case rest =>
    intro other latest
    rw [List.getLast?_concat] at latest
    have outside : other ∉ list := fun member =>
      apart other member (Option.some.inj (latest (List.mem_append_left _ member))).symm
    rw [links other fun atEnd => outside (List.mem_of_getLast? atEnd)]
    exact walked.rest other fun member => absurd member outside

theorem vertexOf_eq_none (new : keyIn start vertex ∉ list.map (keyIn start)) :
    vertexOf start list (keyIn start vertex) = none := by
  refine List.find?_eq_none.mpr fun other member equal => new ?_
  rw [← of_decide_eq_true equal]
  exact List.mem_map_of_mem member

/-- A new key, as long as there are numbers. -/
theorem Walked.fresh (walked : Walked start list state) (distinct : list.Nodup)
    (new : keyIn start vertex ∉ list.map (keyIn start)) (room : list.length + 1 < 2147483647) :
    Exists fun after => findVertex state vertex = some (after, vertex) ∧
      Walked start (list ++ [vertex]) after := by
  have key : (state.memory.get vertex).key = keyIn start vertex := walked.kept vertex
  have few := walked.few
  have unknown := vertexOf_eq_none new
  rcases walked.table.dictAdd (by omega) unknown vertex with ⟨table, added, entered⟩
  have next : increment state.id = some (state.id + 1) := by
    rw [increment, walked.id, if_pos (by omega)]
  have size : (state.memory.modify vertex fun cell => { cell with id := state.id }).size =
      state.memory.size := rfl
  have own : (state.memory.modify vertex fun cell => { cell with id := state.id }).get vertex =
      { state.memory.get vertex with id := state.id } := Arena.modify_get_same _ _ _
  have others : ∀ other, other ≠ vertex →
      (state.memory.modify vertex fun cell => { cell with id := state.id }).get other =
        state.memory.get other := fun other apart => Arena.modify_get_of_ne _ _ apart
  unfold findVertex
  dsimp only
  rw [key, walked.table.dictFind, unknown]
  dsimp only [Option.bind_eq_bind, Option.bind_some]
  rw [added]
  dsimp only [Option.bind_some]
  rw [next]
  dsimp only [Option.bind_some]
  generalize (state.memory.modify vertex fun cell => { cell with id := state.id }) = numbered
    at size own others ⊢
  have kept : ∀ other, keyIn numbered other = keyIn state.memory other ∧
      (numbered.get other).next = (state.memory.get other).next := by
    intro other
    by_cases same : other = vertex
    · rw [same, keyIn, own]
      exact ⟨rfl, rfl⟩
    · rw [keyIn, others other same]
      exact ⟨rfl, rfl⟩
  cases atEnd : list.getLast? with
  | none =>
      have empty := List.getLast?_eq_none_iff.mp atEnd
      rw [walked.head, empty]
      refine ⟨_, rfl, ?_⟩
      have pushed := walked.push distinct new room entered numbered size
        (fun other => (kept other).1) (congrArg Vertex.id own)
        (fun other apart => congrArg Vertex.id (others other apart))
        (fun last here => nomatch atEnd.symm.trans here) fun other _ => (kept other).2
      rwa [empty] at pushed
  | some last =>
      have member := List.mem_of_getLast? atEnd
      rcases List.exists_cons_of_ne_nil (List.ne_nil_of_mem member) with ⟨first, behind, split⟩
      have linked : ∀ other, keyIn (numbered.modify last fun cell =>
          { cell with next := some vertex }) other = keyIn numbered other ∧
          ((numbered.modify last fun cell => { cell with next := some vertex }).get other).id =
            (numbered.get other).id := by
        intro other
        by_cases same : other = last
        · rw [same, keyIn, Arena.modify_get_same]
          exact ⟨rfl, rfl⟩
        · rw [keyIn, Arena.modify_get_of_ne _ _ same]
          exact ⟨rfl, rfl⟩
      have behindLast : ∀ other, list.getLast? = some other → ((numbered.modify last fun cell =>
          { cell with next := some vertex }).get other).next = some vertex := by
        intro other here
        cases atEnd.symm.trans here
        rw [Arena.modify_get_same]
      have elsewhere : ∀ other, list.getLast? ≠ some other → ((numbered.modify last fun cell =>
          { cell with next := some vertex }).get other).next = (state.memory.get other).next := by
        intro other apart
        have different : other ≠ last := by
          rintro rfl
          exact apart atEnd
        rw [Arena.modify_get_of_ne _ _ different]
        exact (kept other).2
      have pushed := walked.push distinct new room entered
        (numbered.modify last fun cell => { cell with next := some vertex }) size
        (fun other => (linked other).1.trans (kept other).1)
        ((linked vertex).2.trans (congrArg Vertex.id own))
        (fun other apart => (linked other).2.trans (congrArg Vertex.id (others other apart)))
        behindLast elsewhere
      rw [walked.head, split, List.head?_cons, walked.tail, atEnd]
      refine ⟨_, rfl, ?_⟩
      rwa [split] at pushed

/-- Behind the greatest `int` there is no number. -/
theorem Walked.full (walked : Walked start list state)
    (new : keyIn start vertex ∉ list.map (keyIn start)) (full : 2147483647 ≤ list.length + 1) :
    findVertex state vertex = none := by
  have key : (state.memory.get vertex).key = keyIn start vertex := walked.kept vertex
  have few := walked.few
  have unknown := vertexOf_eq_none new
  rcases walked.table.dictAdd (by omega) unknown vertex with ⟨table, added, -⟩
  have last : increment state.id = none := by
    rw [increment, walked.id, if_neg (by omega)]
  unfold findVertex
  dsimp only
  rw [key, walked.table.dictFind, unknown]
  dsimp only [Option.bind_eq_bind, Option.bind_some]
  rw [added]
  dsimp only [Option.bind_some]
  rw [last]
  rfl

end Step

/-! ## The loop -/

section Loop

variable {start : Arena Vertex} {seen : List Nat} {state : Numbering}

theorem Edge.entry_congr {memory other : Arena Vertex} {edge edge' : Edge}
    (label : edge.label = edge'.label) (source : keyIn memory edge.source = keyIn other edge'.source)
    (target : keyIn memory edge.target = keyIn other edge'.target) :
    edge.entry memory = edge'.entry other := by
  change Entry.mk edge.label (keyIn memory edge.source) (keyIn memory edge.target) = _
  rw [label, source, target]
  rfl

/-- An end of an edge is led to the first vertex of its key. -/
theorem findVertex_found (walked : Walked start (firsts (keyIn start) seen) state) {vertex : Nat}
    (room : (firsts (keyIn start) (seen ++ [vertex])).length < 2147483647) :
    Exists fun after => Exists fun found => findVertex state vertex = some (after, found) ∧
      Walked start (firsts (keyIn start) (seen ++ [vertex])) after ∧
      found ∈ firsts (keyIn start) (seen ++ [vertex]) ∧ keyIn start found = keyIn start vertex := by
  rw [firsts_concat] at room ⊢
  split at room
  next old =>
      rw [if_pos old]
      rcases walked.known old with ⟨found, done, member, same⟩
      exact ⟨state, found, done, walked, member, same⟩
  next new =>
      rw [if_neg new]
      rw [List.length_append, List.length_singleton] at room
      rcases walked.fresh (nodup_firsts seen) new room with ⟨after, done, later⟩
      exact ⟨after, vertex, done, later, List.mem_append_right _ (List.mem_singleton_self vertex), rfl⟩

theorem findVertex_stuck (walked : Walked start (firsts (keyIn start) seen) state) {vertex : Nat}
    (full : 2147483647 ≤ (firsts (keyIn start) (seen ++ [vertex])).length) :
    findVertex state vertex = none := by
  have few := walked.few
  rw [firsts_concat] at full
  split at full
  next old => omega
  next new =>
      rw [List.length_append, List.length_singleton] at full
      exact walked.full new full

theorem ends_cons (seen : List Nat) (edge : Edge) (edges : List Edge) :
    seen ++ ends (edge :: edges) = seen ++ [edge.source] ++ [edge.target] ++ ends edges := by
  rw [List.append_assoc, List.append_assoc]
  rfl

/-- The loop numbers the first vertex of every key. -/
theorem numberEdges_numbered {edges : List Edge}
    (walked : Walked start (firsts (keyIn start) seen) state)
    (room : (firsts (keyIn start) (seen ++ ends edges)).length < 2147483647) :
    Exists fun after => Exists fun others => numberEdges state edges = some (after, others) ∧
      Walked start (firsts (keyIn start) (seen ++ ends edges)) after ∧
      others.map (Edge.entry start) = edges.map (Edge.entry start) ∧
      ∀ edge ∈ others, edge.source ∈ firsts (keyIn start) (seen ++ ends edges) ∧
        edge.target ∈ firsts (keyIn start) (seen ++ ends edges) := by
  induction edges generalizing seen state with
  | nil =>
      rw [ends, List.flatMap_nil, List.append_nil]
      exact ⟨state, [], rfl, walked, rfl, nofun⟩
  | cons edge edges inductionHypothesis =>
      rw [ends_cons] at room ⊢
      have second : firsts (keyIn start) (seen ++ [edge.source] ++ [edge.target]) <+:
          firsts (keyIn start) (seen ++ [edge.source] ++ [edge.target] ++ ends edges) :=
        firsts_append _ _
      have first : firsts (keyIn start) (seen ++ [edge.source]) <+:
          firsts (keyIn start) (seen ++ [edge.source] ++ [edge.target] ++ ends edges) :=
        (firsts_append _ _).trans second
      have targetRoom := Nat.lt_of_le_of_lt second.length_le room
      have sourceRoom := Nat.lt_of_le_of_lt first.length_le room
      rcases findVertex_found walked sourceRoom with ⟨middle, source, one, walked, sourceIn, sourceKey⟩
      rcases findVertex_found walked targetRoom with ⟨later, target, two, walked, targetIn, targetKey⟩
      rcases inductionHypothesis walked room with ⟨after, others, rest, walked, entries, inside⟩
      refine ⟨after, { edge with source := source, target := target } :: others, ?_, walked, ?_, ?_⟩
      · rw [numberEdges, one]
        dsimp only [Option.bind_eq_bind, Option.bind_some]
        rw [two]
        dsimp only [Option.bind_some]
        rw [rest]
        rfl
      · rw [List.map_cons, List.map_cons, entries]
        have entry : Edge.entry start { edge with source := source, target := target } =
            Edge.entry start edge := Edge.entry_congr rfl sourceKey targetKey
        rw [entry]
      · intro other member
        rcases List.mem_cons.mp member with rfl | member
        · exact ⟨first.subset sourceIn, second.subset targetIn⟩
        · exact inside other member

/-- It does not end where there are more keys than numbers. -/
theorem numberEdges_stuck {edges : List Edge}
    (walked : Walked start (firsts (keyIn start) seen) state)
    (full : 2147483647 ≤ (firsts (keyIn start) (seen ++ ends edges)).length) :
    numberEdges state edges = none := by
  induction edges generalizing seen state with
  | nil =>
      have few := walked.few
      rw [ends, List.flatMap_nil, List.append_nil] at full
      omega
  | cons edge edges inductionHypothesis =>
      rw [ends_cons] at full
      rw [numberEdges]
      by_cases sourceRoom : (firsts (keyIn start) (seen ++ [edge.source])).length < 2147483647
      · rcases findVertex_found walked sourceRoom with ⟨middle, source, one, walked, -, -⟩
        rw [one]
        dsimp only [Option.bind_eq_bind, Option.bind_some]
        by_cases targetRoom :
            (firsts (keyIn start) (seen ++ [edge.source] ++ [edge.target])).length < 2147483647
        · rcases findVertex_found walked targetRoom with ⟨later, target, two, walked, -, -⟩
          rw [two]
          dsimp only [Option.bind_some]
          rw [inductionHypothesis walked full]
          rfl
        · rw [findVertex_stuck walked (Nat.le_of_not_lt targetRoom)]
          rfl
      · rw [findVertex_stuck walked (Nat.le_of_not_lt sourceRoom)]
        rfl

end Loop

/-! ## Graphs -/

/-- The keys of the ends are those of the entries. -/
theorem map_ends (memory : Arena Vertex) (edges : List Edge) :
    (ends edges).map (keyIn memory) = keys (edges.map (Edge.entry memory)) := by
  rw [ends, keys, List.map_flatMap, List.flatMap_map]
  rfl

/-- The first vertex of every key. -/
def vertices (graph : Graph) : List Nat := firsts (keyIn graph.memory) (ends graph.edges)

/-- What holds of a graph between calls.  The links there are come from an
earlier numbering: they join some of the vertices that come first. -/
structure Sound (graph : Graph) (current : Nat → Option Bytes) (entries : List Entry) : Prop where
  inside : ∀ vertex ∈ ends graph.edges, vertex < graph.memory.size
  threads : ∀ thread vertex, graph.current thread = some vertex → vertex < graph.memory.size
  current : ∀ thread, (graph.current thread).map (keyIn graph.memory) = current thread
  entries : graph.edges.map (Edge.entry graph.memory) = entries
  links : Exists fun list : List Nat => list <+: vertices graph ∧
    Chain (fun vertex => (graph.memory.get vertex).next) list.head? list ∧
    ∀ vertex < graph.memory.size, vertex ∉ list → (graph.memory.get vertex).next = none

theorem sound_create : Sound templateTaskGraphCreate (fun _ => none) [] where
  inside := nofun
  threads := nofun
  current := fun _ => rfl
  entries := rfl
  links := ⟨[], List.nil_prefix, .nil, nofun⟩

section Graphs

variable {graph : Graph} {current : Nat → Option Bytes} {entries : List Entry}

/-- No link leads on from the last vertex. -/
theorem Sound.last (sound : Sound graph current entries) {last : Nat}
    (atEnd : (vertices graph).getLast? = some last) : (graph.memory.get last).next = none := by
  rcases sound.links with ⟨list, ⟨behind, split⟩, chain, free⟩
  by_cases member : last ∈ list
  · rcases List.eq_nil_or_concat behind with rfl | ⟨front, other, rfl⟩
    · rw [List.append_nil] at split
      exact chain.ends (split ▸ atEnd)
    · -- the last vertex does not come twice
      have distinct : (list ++ front.concat other).Nodup := split ▸ nodup_firsts _
      rw [← split, List.concat_eq_append, ← List.append_assoc, List.getLast?_concat] at atEnd
      have later : last ∈ front.concat other := by
        rw [List.concat_eq_append, Option.some.inj atEnd]
        exact List.mem_append_right _ (List.mem_singleton_self last)
      exact absurd rfl ((List.nodup_append.mp distinct).2.2 last member last later)
  · exact free last (sound.inside last (firsts_subset (List.mem_of_getLast? atEnd))) member

/-- A numbering of a sound graph. -/
theorem Sound.vertexes (sound : Sound graph current entries)
    (few : (keys entries).eraseDups.length < 2147483647) :
    Exists fun after => Exists fun head => templateTaskGraphVertexes graph = some (after, head) ∧
      Sound after current entries ∧ Numbered after head entries := by
  have keyed : (vertices graph).map (keyIn graph.memory) = (keys entries).eraseDups := by
    rw [vertices, map_firsts, map_ends, sound.entries]
  have room : (firsts (keyIn graph.memory) ([] ++ ends graph.edges)).length < 2147483647 := by
    rw [← List.length_map (keyIn graph.memory)]
    exact keyed ▸ few
  have begun : Walked graph.memory (firsts (keyIn graph.memory) []) (.initial graph.memory) :=
    walked_nil graph.memory
  rcases numberEdges_numbered begun room with
    ⟨state, others, done, walked, same, inside⟩
  rw [List.nil_append] at walked inside
  have kept : keyIn state.memory = keyIn graph.memory := funext walked.kept
  have entry : Edge.entry state.memory = Edge.entry graph.memory := by
    funext edge
    exact Edge.entry_congr rfl (walked.kept edge.source) (walked.kept edge.target)
  have led : ∀ vertex ∈ ends others, vertex ∈ vertices graph := by
    intro vertex member
    rcases List.mem_flatMap.mp member with ⟨edge, there, here⟩
    rcases List.mem_pair.mp here with rfl | rfl
    · exact (inside edge there).1
    · exact (inside edge there).2
  have again : firsts (keyIn state.memory) (ends others) = vertices graph := by
    rw [kept]
    apply firsts_replaced _ led
    rw [map_ends, map_ends, same]
  have chain : Chain (fun vertex => (state.memory.get vertex).next) (vertices graph).head?
      (vertices graph) := by
    apply chain_of_joined walked.joined
    intro last atEnd
    rw [walked.rest last fun _ => atEnd]
    exact sound.last atEnd
  refine ⟨_, state.head, by rw [templateTaskGraphVertexes, done]; rfl, ⟨?_, ?_, ?_, ?_, ?_⟩, ?_, ?_⟩
  · intro vertex member
    rw [walked.size]
    exact sound.inside vertex (firsts_subset (led vertex member))
  · intro thread vertex set
    rw [walked.size]
    exact sound.threads thread vertex set
  · intro thread
    rw [kept]
    exact sound.current thread
  · dsimp only
    rw [entry, same, sound.entries]
  · refine ⟨vertices graph, again ▸ List.prefix_refl _, chain, fun vertex small outside => ?_⟩
    rcases sound.links with ⟨list, front, -, free⟩
    dsimp only
    rw [walked.rest vertex fun member => absurd member outside]
    exact free vertex (walked.size ▸ small) fun member => outside (front.subset member)
  · refine ⟨vertices graph, walked.head ▸ chain, ?_, walked.ids, inside⟩
    dsimp only
    rw [← keyed]
    exact List.map_congr_left fun vertex _ => walked.kept vertex
  · dsimp only
    rw [entry, same, sound.entries]

/-- More keys than there are numbers. -/
theorem Sound.vertexes_stuck (sound : Sound graph current entries)
    (many : 2147483647 ≤ (keys entries).eraseDups.length) :
    templateTaskGraphVertexes graph = none := by
  have full : 2147483647 ≤ (firsts (keyIn graph.memory) ([] ++ ends graph.edges)).length := by
    rw [← List.length_map (keyIn graph.memory), map_firsts, List.nil_append, map_ends,
      sound.entries]
    exact many
  have begun : Walked graph.memory (firsts (keyIn graph.memory) []) (.initial graph.memory) :=
    walked_nil graph.memory
  rw [templateTaskGraphVertexes, numberEdges_stuck begun full]
  rfl

/-- A new vertex that no edge has yet. -/
theorem Sound.alloc (sound : Sound graph current entries) (vertex : Vertex)
    (bare : vertex.next = none) :
    Sound { graph with memory := graph.memory.alloc vertex } current entries where
  inside := fun other member => Nat.lt_succ_of_lt (sound.inside other member)
  threads := fun thread other set => Nat.lt_succ_of_lt (sound.threads thread other set)
  current := by
    intro thread
    rw [← sound.current thread]
    cases set : graph.current thread with
    | none => rfl
    | some other =>
        rw [Option.map_some, Option.map_some, keyIn,
          Arena.alloc_get_of_lt _ _ (sound.threads thread other set)]
  entries := by
    rw [← sound.entries]
    refine List.map_congr_left fun edge member => ?_
    have old : ∀ other ∈ [edge.source, edge.target], other < graph.memory.size :=
      fun other here => sound.inside other (List.mem_flatMap.mpr ⟨edge, member, here⟩)
    apply Edge.entry_congr rfl
    · rw [keyIn, Arena.alloc_get_of_lt _ _ (old _ List.mem_cons_self)]
    · rw [keyIn, Arena.alloc_get_of_lt _ _ (old _ (List.mem_cons_of_mem _ List.mem_cons_self))]
  links := by
    rcases sound.links with ⟨list, front, chain, free⟩
    have same : vertices { graph with memory := graph.memory.alloc vertex } = vertices graph := by
      refine firsts_congr fun other member => ?_
      rw [keyIn, Arena.alloc_get_of_lt _ _ (sound.inside other member)]
    refine ⟨list, same ▸ front, chain.congr fun other member => ?_, fun other small outside => ?_⟩
    · have old := sound.inside other (firsts_subset (front.subset member))
      dsimp only
      rw [Arena.alloc_get_of_lt _ _ old]
    · dsimp only
      rcases Nat.lt_succ_iff_lt_or_eq.mp small with old | rfl
      · rw [Arena.alloc_get_of_lt _ _ old]
        exact free other old outside
      · rw [Arena.alloc_get_same]
        exact bare

variable {printPointer : Nat → Bytes}

theorem Sound.setCurrent (sound : Sound graph current entries) (thread task : Nat) :
    Sound (templateTaskGraphSetCurrent printPointer graph thread task)
      (Function.update current thread (some (printPointer task))) entries where
  inside := (sound.alloc _ rfl).inside
  threads := by
    intro other vertex set
    dsimp only [templateTaskGraphSetCurrent] at set
    by_cases same : other = thread
    · rw [same, Function.update_self] at set
      cases set
      exact Nat.lt_succ_self _
    · rw [Function.update_of_ne same] at set
      exact Nat.lt_succ_of_lt (sound.threads other vertex set)
  current := by
    intro other
    dsimp only [templateTaskGraphSetCurrent]
    by_cases same : other = thread
    · rw [same, Function.update_self, Function.update_self, Option.map_some, keyIn,
        Arena.alloc_get_same]
      rfl
    · rw [Function.update_of_ne same, Function.update_of_ne same]
      exact (sound.alloc _ rfl).current other
  entries := (sound.alloc _ rfl).entries
  links := (sound.alloc _ rfl).links

/-- A new edge to the vertex that was allocated last. -/
theorem Sound.newEdge (sound : Sound graph current entries) {source target : Nat} (label : Bytes)
    (sourceIn : source < graph.memory.size) (targetIn : target < graph.memory.size) :
    Sound { graph with edges := graph.edges ++
        [{ label := label, source := source, target := target }] } current
      (entries ++ [{ label := label, source := keyIn graph.memory source,
                     target := keyIn graph.memory target }]) where
  inside := by
    intro vertex member
    rw [ends, List.flatMap_append] at member
    rcases List.mem_append.mp member with old | new
    · exact sound.inside vertex old
    · rcases List.mem_pair.mp new with rfl | rfl
      · exact sourceIn
      · exact targetIn
  threads := sound.threads
  current := sound.current
  entries := by
    rw [List.map_append, sound.entries]
    rfl
  links := by
    rcases sound.links with ⟨list, front, chain, free⟩
    refine ⟨list, front.trans ?_, chain, free⟩
    rw [vertices, vertices, ends, ends, List.flatMap_append]
    exact firsts_append _ _

theorem Sound.add (sound : Sound graph current entries) (thread : Nat) (name : Bytes)
    (fork : Option Bytes) (task : Nat) (mode : Int) :
    Sound (templateTaskGraphAdd printPointer graph thread name fork task mode) current
      (entries ++ match current thread with
        | none => []
        | some source => [{ label := templateTaskGraphEdgeName name fork, source := source,
                            target := printPointer task }]) := by
  have set := sound.current thread
  unfold templateTaskGraphAdd
  cases here : graph.current thread with
  | none =>
      rw [here] at set
      rw [← set]
      dsimp only [Option.map_none]
      rwa [List.append_nil]
  | some source =>
      rw [here] at set
      rw [← set]
      dsimp only [Option.map_some]
      generalize (if mode = 1 then some (lit "green") else if mode = 0 then some (lit "red")
        else none) = color
      have old := sound.threads thread source here
      have grown := sound.alloc
        { key := templateTaskGraphVertexKey printPointer task, color := color } rfl
      have added := grown.newEdge (templateTaskGraphEdgeName name fork) (Nat.lt_succ_of_lt old)
        (Nat.lt_succ_self graph.memory.size)
      dsimp only at added
      rw [keyIn, keyIn, Arena.alloc_get_of_lt _ _ old, Arena.alloc_get_same] at added
      exact added

end Graphs

/-! ## Calls -/

section Calls

variable (printPointer : Nat → Bytes)

theorem run_cons {graph next : Graph} {call : GraphCall} (taken : call.apply printPointer graph = some next)
    (calls : List GraphCall) : run printPointer graph (call :: calls) = run printPointer next calls := by
  rw [run, List.foldlM_cons, taken]
  rfl

theorem recorded_add (current : Nat → Option Bytes) (thread : Nat) (name : Bytes)
    (fork : Option Bytes) (task : Nat) (mode : Int) (calls : List GraphCall) :
    recorded printPointer current (.add thread name fork task mode :: calls) =
      (match current thread with
        | none => []
        | some source => [{ label := templateTaskGraphEdgeName name fork, source := source,
                            target := printPointer task }]) ++ recorded printPointer current calls := by
  rw [recorded]
  cases current thread <;> rfl

/-- Fewer entries have no more keys. -/
theorem keys_length_le (front back : List Entry) :
    (keys front).eraseDups.length ≤ (keys (front ++ back)).eraseDups.length := by
  rw [keys, keys, List.flatMap_append, List.eraseDups_append, List.length_append]
  exact Nat.le_add_right _ _

/-- A graph is sound after all calls, whichever of them number its vertices. -/
theorem Sound.run {graph : Graph} {current : Nat → Option Bytes} {entries : List Entry}
    (sound : Sound graph current entries) (calls : List GraphCall)
    (few : .vertexes ∈ calls →
      (keys (entries ++ recorded printPointer current calls)).eraseDups.length < 2147483647) :
    Exists fun after => Exists fun last => run printPointer graph calls = some after ∧
      Sound after last (entries ++ recorded printPointer current calls) := by
  induction calls generalizing graph current entries with
  | nil =>
      refine ⟨graph, current, rfl, ?_⟩
      rwa [recorded, List.append_nil]
  | cons call calls inductionHypothesis =>
      cases call with
      | setCurrent thread task =>
          rw [run_cons printPointer rfl]
          exact inductionHypothesis (sound.setCurrent thread task) fun later =>
            few (List.mem_cons_of_mem _ later)
      | add thread name fork task mode =>
          rw [run_cons printPointer rfl]
          rw [recorded_add, ← List.append_assoc] at few ⊢
          exact inductionHypothesis (sound.add thread name fork task mode) fun later =>
            few (List.mem_cons_of_mem _ later)
      | vertexes =>
          have enough := Nat.lt_of_le_of_lt (keys_length_le entries _) (few List.mem_cons_self)
          rcases sound.vertexes enough with ⟨after, head, done, later, -⟩
          have taken : GraphCall.vertexes.apply printPointer graph = some after := by
            rw [GraphCall.apply, done]
            rfl
          rw [run_cons printPointer taken]
          exact inductionHypothesis later fun _ => few List.mem_cons_self

/-- After any calls the vertices are numbered as the entries recorded until then
ask, as long as there are fewer keys than the greatest `int`. -/
theorem vertexes_numbered (calls : List GraphCall)
    (few : (keys (recorded printPointer (fun _ => none) calls)).eraseDups.length < 2147483647) :
    Exists fun graph => Exists fun after => Exists fun head =>
      run printPointer templateTaskGraphCreate calls = some graph ∧
      templateTaskGraphVertexes graph = some (after, head) ∧
      Numbered after head (recorded printPointer (fun _ => none) calls) := by
  rcases sound_create.run printPointer calls fun _ => few with ⟨graph, current, ran, sound⟩
  rcases sound.vertexes few with ⟨after, head, done, -, numbered⟩
  exact ⟨graph, after, head, ran, done, numbered⟩

end Calls

/-! ## Pointers as they are printed -/

def hexDigit (d : Nat) : UInt8 := (if d < 10 then d + 48 else d + 87).toUInt8

/-- The text of a pointer: its hexadecimal digits, without leading zeros. -/
def hexPointer (address : Nat) : Bytes :=
  if address = 0 then lit "(nil)" else lit "0x" ++ ((Nat.digits 16 address).map hexDigit).reverse

theorem hexDigit_inj : ∀ d < 16, ∀ e < 16, hexDigit d = hexDigit e → d = e := by decide

theorem hexPointer_inj {address other : Nat} (positive : address ≠ 0) (positive' : other ≠ 0)
    (same : hexPointer address = hexPointer other) : address = other := by
  rw [hexPointer, hexPointer, if_neg positive, if_neg positive'] at same
  have digits := List.reverse_injective (List.append_cancel_left same)
  apply Nat.digits.injective 16
  apply eq_of_map_eq _ digits
  intro d member e another equal
  exact hexDigit_inj d (Nat.digits_lt_base (by decide) member) e
    (Nat.digits_lt_base (by decide) another) equal

/-- Two tasks under three edges, with a numbering on the way. -/
theorem vertexes_numbered_again :
    let calls := [.setCurrent 0 1, .add 0 (lit "xsl:apply-templates") none 2 1, .vertexes,
      .add 0 (lit "xsl:for-each") (some (lit "yes")) 2 1, .setCurrent 1 2,
      .add 1 (lit "xsl:element") none 1 0]
    Exists fun graph => Exists fun after => Exists fun head =>
      run hexPointer templateTaskGraphCreate calls = some graph ∧
      templateTaskGraphVertexes graph = some (after, head) ∧
      Numbered after head (recorded hexPointer (fun _ => none) calls) := by
  intro calls
  apply vertexes_numbered
  decide

/-- A thread that starts one task after the other. -/
theorem recorded_tasks (current : Nat → Option Bytes) (source : Bytes) (known : current 0 = some source)
    (tasks : List Nat) :
    recorded hexPointer current (tasks.map fun i => .add 0 (lit "xsl:for-each") none (i + 2) 0) =
      tasks.map fun i => { label := lit "xsl:for-each", source := source,
                           target := hexPointer (i + 2) } := by
  induction tasks with
  | nil => rfl
  | cons task tasks inductionHypothesis =>
      rw [List.map_cons, List.map_cons, recorded_add, inductionHypothesis, known]
      rfl

/-- There is a key for every task. -/
theorem length_le_keys {tasks : List Nat} (distinct : tasks.Nodup) (source : Bytes) :
    tasks.length ≤ (keys (tasks.map fun i => { label := lit "xsl:for-each", source := source,
                                               target := hexPointer (i + 2) })).eraseDups.length := by
  have different : (tasks.map fun i => hexPointer (i + 2)).Nodup := by
    refine distinct.map_on fun i _ j _ same => ?_
    exact Nat.add_right_cancel (hexPointer_inj (Nat.succ_ne_zero _) (Nat.succ_ne_zero _) same)
  rw [← List.length_map fun i => hexPointer (i + 2)]
  apply List.Subperm.length_le
  apply different.subperm
  intro key member
  rcases List.mem_map.mp member with ⟨i, there, rfl⟩
  rw [List.mem_eraseDups, keys, List.flatMap_map]
  exact List.mem_flatMap.mpr ⟨i, there, List.mem_cons_of_mem _ List.mem_cons_self⟩

/-- More tasks than an `int` counts. -/
theorem tasks_run_out {tasks : List Nat} (distinct : tasks.Nodup)
    (many : 2147483647 ≤ tasks.length) :
    Exists fun graph => run hexPointer templateTaskGraphCreate (.setCurrent 0 1 ::
        tasks.map fun i => .add 0 (lit "xsl:for-each") none (i + 2) 0) = some graph ∧
      templateTaskGraphVertexes graph = none := by
  have recording := recorded_tasks (Function.update (fun _ => none) 0 (some (hexPointer 1)))
    (hexPointer 1) (Function.update_self _ _ _) tasks
  have enough := Nat.le_trans many (length_le_keys distinct (hexPointer 1))
  have numbered : .vertexes ∉ (.setCurrent 0 1 ::
      tasks.map fun i => .add 0 (lit "xsl:for-each") none (i + 2) 0 : List GraphCall) := by
    intro member
    rcases List.mem_cons.mp member with impossible | member
    · cases impossible
    · rcases List.mem_map.mp member with ⟨task, -, impossible⟩
      cases impossible
  rcases sound_create.run hexPointer _ fun member => absurd member numbered with
    ⟨graph, current, ran, sound⟩
  refine ⟨graph, ran, sound.vertexes_stuck ?_⟩
  rwa [List.nil_append, recorded, recording]

/-- A thread that starts 2147483647 tasks: the vertices are more than an `int`
counts. -/
theorem numbers_run_out :
    Exists fun graph => run hexPointer templateTaskGraphCreate (.setCurrent 0 1 ::
        (List.range 2147483647).map fun i => .add 0 (lit "xsl:for-each") none (i + 2) 0) =
          some graph ∧
      templateTaskGraphVertexes graph = none :=
  tasks_run_out List.nodup_range (Nat.le_of_eq List.length_range.symm)

end TaskGraph
end TurboXSL
