import TurboXSL.Bytes
import TurboXSL.Library.Arena

namespace TurboXSL

open Library

/-!
# The nodes of documents

`XMLNODE` with the fields that parsing, matching and evaluation use, in a
memory of nodes numbered by allocation.  A pointer is an optional number,
`none` for NULL.  Source positions (`line`, `file`), the allocator and the
`order` field, which only ever holds zero, are left out.
-/

/-- `NODETYPE`, as far as it concerns nodes of documents and of results. -/
inductive NodeType where
  | empty | element | text | attribute | pi | comment | info | key
deriving DecidableEq, Repr

abbrev NodeId := Nat
abbrev Ptr := Option NodeId

def xmlFlagCdata : Nat := 1
def xmlFlagNoescape : Nat := 2
def xmlFlagSortnumber : Nat := 4
def xmlFlagDescending : Nat := 8

/-- `struct _xmlnode`.  Fresh memory is zeroed, so every field but the type
and the name starts as zero or NULL. -/
structure XmlNode where
  type : NodeType
  name : Option Bytes := none
  content : Option Bytes := none
  parent : Ptr := none
  next : Ptr := none
  prev : Ptr := none
  children : Ptr := none
  attributes : Ptr := none
  original : Ptr := none
  uid : Ptr := none
  flags : Nat := 0
  position : Nat := 0
deriving DecidableEq, Repr

abbrev Heap := Arena XmlNode

/-- Before anything is allocated. -/
def Heap.empty : Heap := ⟨0, fun _ => { type := .empty }⟩

/-- The memory that holds the listed nodes. -/
def Heap.ofList (nodes : List XmlNode) : Heap :=
  ⟨nodes.length, fun node => nodes.getD node { type := .empty }⟩

/-- `xml_new_node`: the new node is its own `uid`. -/
def xmlNewNode (heap : Heap) (name : Option Bytes) (type : NodeType) : Heap × NodeId :=
  (heap.alloc { type := type, name := name, uid := some heap.size }, heap.size)

/-- `xsl_s_root`, the name of every document's root. -/
def xslSRoot : Bytes := lit "root"

/-- `xsl_s_slash` -/
def xslSSlash : Bytes := lit "/"

/-- The chain `p, p->next, ...`; `none` when it does not end. -/
def siblings (heap : Heap) (p : Ptr) : Option (List NodeId) :=
  follow (fun i => (heap.get i).next) heap.size p

/-- A chain of siblings in the sense of the library. -/
abbrev Siblings (heap : Heap) : Ptr → List NodeId → Prop :=
  Chain fun i => (heap.get i).next

end TurboXSL
