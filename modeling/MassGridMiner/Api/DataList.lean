import Mathlib.Algebra.BigOperators.Group.Finset.Piecewise
import Mathlib.Data.Multiset.Range
import MassGridMiner.Api.Data
import MassGridMiner.Lib.Circular

/-!
# The list that a reply is made of

`api_add_data_full` and `api_add_extra` link the nodes of a reply by hand, and `print_data` unlinks
them as it prints.  A node owns its name; whether it owns its data, or has a reference to it,
depends on the type and on whether the data was to be copied.

## Main definitions

* `Memory` — the nodes, the blocks, and the references to JSON values.
* `Memory.addExtra`, `Memory.addDataFull`, `Memory.printData` — the functions, where reading or
  freeing what is not there has no result.
* `Member`, `printMembersText` — what is added, and how it is printed.
* `step` — a call on one of the lists of a program.
-/

namespace MassGridMiner
namespace ApiList

/-! ## Data -/

/-- Data of a type.  JSON values have numbers, and the data of an unknown type has no meaning. -/
inductive Value
  | data (d : ApiData)
  | json (j : ℕ)
  | unknown

/-- The type of a node; the data of a plain one says which it is. -/
inductive ApiType
  | plain
  | json
  | unknown
deriving DecidableEq

/-- Where the data of a node is.  Data that is not copied is a literal or stays as it is until the
list is printed. -/
inductive Pointer
  | value (d : ApiData)
  | json (j : ℕ)
  | block (p : ℕ)
  | other

def Value.type : Value → ApiType
  | .data _ => .plain
  | .json _ => .json
  | .unknown => .unknown

def Value.pointer : Value → Pointer
  | .data d => .value d
  | .json j => .json j
  | .unknown => .other

/-- `UNKNOWN`. -/
def unknownText : CStr := cstr "Unknown"

/-- What is added for data, which may be NULL. -/
def added : Option Value → Bool → Value
  | none, _ => .data (.const nullstr)
  | some .unknown, true => .data (.string unknownText)
  | some v, _ => v

/-- A name with its data. -/
structure Member where
  name : CStr
  value : Value

/-! ## Memory -/

/-- A `struct api_data` without its links. -/
structure ApiItem where
  name : ℕ
  type : ApiType
  data : Pointer
  dataWasMalloc : Bool

/-- `struct api_data`. -/
structure ApiNode extends ApiItem where
  prev : ℕ
  next : ℕ

/-- What a block holds: a name, copied data, or a copied JSON value with its references. -/
inductive Block
  | name (s : CStr)
  | data (d : ApiData)
  | json (j count : ℕ)

/-- The nodes and the blocks, which take their addresses from one counter, the references to JSON
values of the caller, and what was freed. -/
structure Memory where
  nodes : ℕ → Option ApiNode
  blocks : ℕ → Option Block
  refs : ℕ → ℕ
  made : ℕ
  freed : List ℕ

namespace Memory

def prev (s : Memory) (p : ℕ) : Option ℕ := (s.nodes p).map ApiNode.prev

def next (s : Memory) (p : ℕ) : Option ℕ := (s.nodes p).map ApiNode.next

def item (s : Memory) (p : ℕ) : Option ApiItem := (s.nodes p).map ApiNode.toApiItem

def putNode (s : Memory) (p : ℕ) (n : ApiNode) : Memory :=
  { s with nodes := Function.update s.nodes p (some n) }

def setPrev (s : Memory) (p q : ℕ) : Option Memory :=
  (s.nodes p).map fun n => s.putNode p { n with prev := q }

def setNext (s : Memory) (p q : ℕ) : Option Memory :=
  (s.nodes p).map fun n => s.putNode p { n with next := q }

def setItem (s : Memory) (p : ℕ) (f : ApiItem → ApiItem) : Option Memory :=
  (s.nodes p).map fun n => s.putNode p { n with toApiItem := f n.toApiItem }

/-- `malloc`, with what is then written. -/
def malloc (s : Memory) (b : Block) : Memory :=
  { s with blocks := Function.update s.blocks s.made (some b), made := s.made + 1 }

def freeNode (s : Memory) (p : ℕ) : Option Memory :=
  (s.nodes p).map fun _ =>
    { s with nodes := Function.update s.nodes p none, freed := p :: s.freed }

def freeBlock (s : Memory) (p : ℕ) : Option Memory :=
  (s.blocks p).map fun _ =>
    { s with blocks := Function.update s.blocks p none, freed := p :: s.freed }

/-- `free` of the data of a node. -/
def free (s : Memory) : Pointer → Option Memory
  | .block p => s.freeBlock p
  | _ => none

/-- `json_incref`. -/
def jsonIncref (s : Memory) (j : ℕ) : Option Memory :=
  if s.refs j = 0 then none
  else some { s with refs := Function.update s.refs j (s.refs j + 1) }

/-- `json_decref`, which deletes a value that has no reference any more. -/
def jsonDecref (s : Memory) : Pointer → Option Memory
  | .json j =>
    if s.refs j = 0 then none
    else some { s with refs := Function.update s.refs j (s.refs j - 1) }
  | .block p =>
    match s.blocks p with
    | some (.json _ 1) => s.freeBlock p
    | some (.json j (c + 2)) =>
      some { s with blocks := Function.update s.blocks p (some (.json j (c + 1))) }
    | _ => none
  | _ => none

/-- `json_deep_copy`. -/
def jsonDeepCopy (s : Memory) (j : ℕ) : Option (Memory × ℕ) :=
  if s.refs j = 0 then none else some (s.malloc (.json j 1), s.made)

/-! ## Adding -/

/-- `api_add_extra`. -/
def addExtra (s : Memory) (root extra : Option ℕ) : Option (Memory × Option ℕ) :=
  match root, extra with
  | some r, some e => do
    let tmp ← s.prev e
    let tail ← s.prev r
    let s ← s.setPrev e tail
    let tail ← s.prev r
    let s ← s.setNext tail e
    let s ← s.setNext tmp r
    let s ← s.setPrev r tmp
    return (s, some r)
  | some r, none => some (s, some r)
  | none, extra => some (s, extra)

/-- A new node is put at the end of a list. -/
def link (s : Memory) (root : Option ℕ) (p : ℕ) (i : ApiItem) : Option Memory :=
  match root with
  | none => some (s.putNode p { i with prev := p, next := p })
  | some r => do
    let tail ← s.prev r
    let s := s.putNode p { i with prev := tail, next := r }
    let s ← s.setPrev r p
    s.setNext tail p

/-- The data of a new node, which has its type and says already that data is copied if that was
asked for. -/
def storeData (s : Memory) (p : ℕ) : Option Value → Bool → Option Memory
  | none, _ =>
    s.setItem p fun i =>
      { i with type := .plain, data := .value (.const nullstr), dataWasMalloc := false }
  | some v, false => do
    let s ← s.setItem p fun i => { i with data := v.pointer }
    match v with
    | .json j => s.jsonIncref j
    | _ => some s
  | some (.data d), true => (s.malloc (.data d)).setItem p fun i => { i with data := .block s.made }
  | some (.json j), true => do
    let s ← s.setItem p fun i => { i with dataWasMalloc := false }
    let (s, copy) ← s.jsonDeepCopy j
    s.setItem p fun i => { i with data := .block copy }
  | some .unknown, true =>
    s.setItem p fun i =>
      { i with type := .plain, data := .value (.string unknownText), dataWasMalloc := false }

/-- `api_add_data_full`. -/
def addDataFull (s : Memory) (root : Option ℕ) (name : CStr) (data : Option Value)
    (copyData : Bool) : Option (Memory × Option ℕ) := do
  let apiData := s.made
  let s := { s with made := s.made + 1 }
  let i : ApiItem := ⟨s.made, data.elim .plain Value.type, .other, copyData⟩
  let s ← (s.malloc (.name name)).link root apiData i
  let s ← s.storeData apiData data copyData
  return (s, some (root.getD apiData))

/-! ## Printing -/

def nameOf (s : Memory) (p : ℕ) : Option CStr :=
  match s.blocks p with
  | some (.name name) => some name
  | _ => none

/-- The data that is printed for a node, by its type. -/
def valueOf (s : Memory) (i : ApiItem) : Option Value :=
  match i.type, i.data with
  | .plain, .value d => some (.data d)
  | .plain, .block p =>
    match s.blocks p with
    | some (.data d) => some (.data d)
    | _ => none
  | .json, .json j => if s.refs j = 0 then none else some (.json j)
  | .json, .block p =>
    match s.blocks p with
    | some (.json j _) => some (.json j)
    | _ => none
  | .unknown, _ => some .unknown
  | _, _ => none

def memberOf (s : Memory) (i : ApiItem) : Option Member := do
  return ⟨← s.nameOf i.name, ← s.valueOf i⟩

/-- What is freed of a node that was printed, before the node itself is. -/
def release (s : Memory) (i : ApiItem) : Option Memory := do
  let s ← s.freeBlock i.name
  let s ← if i.type = .json then s.jsonDecref i.data else some s
  if i.dataWasMalloc then s.free i.data else some s

/-- The root is taken out of the list, and freed. -/
def unlink (s : Memory) (tmp : ℕ) (n : ApiNode) : Option (Memory × Option ℕ) :=
  if n.next = tmp then do
    let s ← s.freeNode tmp
    return (s, none)
  else do
    let root := n.next
    let s ← s.setPrev root n.prev
    let tail ← s.prev root
    let s ← s.setNext tail root
    let s ← s.freeNode tmp
    return (s, some root)

end Memory

section
variable (printDouble : ℕ → Float → List UInt8) (dumps : ℕ → List UInt8)

/-- What `print_data` prints of data; `dumps` is the text of a JSON value. -/
def Value.print (isjson : Bool) : Value → List UInt8
  | .data d => d.print printDouble isjson
  | .json j => dumps j
  | .unknown => quoted isjson unknownText.bytes

/-- A name and its data. -/
def Member.print (isjson : Bool) (m : Member) : List UInt8 :=
  quoted isjson m.name.bytes ++
    (if isjson then 0x3a else 0x3d) :: m.value.print printDouble dumps isjson

/-- Members in their order, with a comma between them. -/
def printMembers (isjson : Bool) : Bool → List Member → List UInt8
  | _, [] => []
  | first, m :: root =>
    (if first then [] else [comma]) ++ m.print printDouble dumps isjson ++
      printMembers isjson false root

/-- The text for a list of members. -/
def printMembersText (root : List Member) (isjson precom : Bool) : List UInt8 :=
  (if precom then [comma] else []) ++ (if isjson then [0x7b] else []) ++
    printMembers printDouble dumps isjson true root ++ [if isjson then 0x7d else separator]

/-- The loop of `print_data`. -/
def Memory.printLoop (isjson : Bool) :
    ℕ → Memory → Bool → Option ℕ → Option (List UInt8 × Memory)
  | _, s, _, none => some ([], s)
  | 0, _, _, some _ => none
  | fuel + 1, s, first, some root => do
    let n ← s.nodes root
    let m ← s.memberOf n.toApiItem
    let s ← s.release n.toApiItem
    let (s, root) ← s.unlink root n
    let (text, s) ← printLoop isjson fuel s false root
    return ((if first then [] else [comma]) ++ m.print printDouble dumps isjson ++ text, s)

/-- `print_data`; a list has at most as many nodes as were made. -/
def Memory.printData (s : Memory) (root : Option ℕ) (isjson precom : Bool) :
    Option (List UInt8 × Memory) := do
  let (text, s) ← s.printLoop printDouble dumps isjson s.made true root
  return ((if precom then [comma] else []) ++ (if isjson then [0x7b] else []) ++ text ++
    [if isjson then 0x7d else separator], s)

end

/-! ## Calls -/

/-- A call on the lists that a program has in variables.  An extra list is given up, and so is one
that is printed. -/
inductive Op (V : Type)
  | add (v : V) (name : CStr) (data : Option Value) (copyData : Bool)
  | extra (v w : V)
  | print (v : V) (isjson precom : Bool)

/-- A program with its lists, and what it printed. -/
structure Program (V : Type) where
  mem : Memory
  root : V → Option ℕ
  printed : List (List UInt8)

section
variable {V : Type} [DecidableEq V] (printDouble : ℕ → Float → List UInt8)
  (dumps : ℕ → List UInt8)

def step (t : Program V) : Op V → Option (Program V)
  | .add v name data copyData => do
    let (s, root) ← t.mem.addDataFull (t.root v) name data copyData
    return { t with mem := s, root := Function.update t.root v root }
  | .extra v w => do
    let (s, root) ← t.mem.addExtra (t.root v) (t.root w)
    return { t with
      mem := s, root := Function.update (Function.update t.root w none) v root }
  | .print v isjson precom => do
    let (text, s) ← t.mem.printData printDouble dumps (t.root v) isjson precom
    return ⟨s, Function.update t.root v none, t.printed ++ [text]⟩

/-- Nothing was made yet; the JSON values have the references of the caller. -/
def start (refs : ℕ → ℕ) : Program V :=
  ⟨⟨fun _ => none, fun _ => none, refs, 0, []⟩, fun _ => none, []⟩

/-! ## What the calls are for -/

/-- The members of the lists, and what is printed of them. -/
structure Replies (V : Type) where
  members : V → List Member
  printed : List (List UInt8)

def Replies.step (r : Replies V) : Op V → Replies V
  | .add v name data copyData =>
    { r with members :=
        Function.update r.members v (r.members v ++ [⟨name, added data copyData⟩]) }
  | .extra v w =>
    { r with members :=
        Function.update (Function.update r.members w []) v (r.members v ++ r.members w) }
  | .print v isjson precom =>
    ⟨Function.update r.members v [],
      r.printed ++ [printMembersText printDouble dumps (r.members v) isjson precom]⟩

def Replies.start : Replies V := ⟨fun _ => [], []⟩

/-- A list is not added to itself, and a JSON value that is added has a reference. -/
def Op.Proper (refs : ℕ → ℕ) : Op V → Prop
  | .add _ _ (some (.json j)) _ => 0 < refs j
  | .extra v w => v ≠ w
  | _ => True

end

/-! ## Lists of plain data -/

section
variable {printDouble : ℕ → Float → List UInt8} {dumps : ℕ → List UInt8} {isjson : Bool}

/-- An unknown type is printed in the same way whether its data is copied or not. -/
theorem print_added_unknown (copyData : Bool) :
    (added (some .unknown) copyData).print printDouble dumps isjson =
      quoted isjson unknownText.bytes := by
  cases copyData <;> rfl

/-- A member of plain data is printed as a field is. -/
theorem printMembers_map_data (first : Bool) (l : List (CStr × ApiData)) :
    printMembers printDouble dumps isjson first (l.map fun m => ⟨m.1, .data m.2⟩) =
      printFields printDouble isjson first (l.map fun m => ⟨m.1.bytes, m.2⟩) := by
  induction l generalizing first with
  | nil => rfl
  | cons m l ih =>
      rw [List.map_cons, List.map_cons, printMembers, printFields, ih]
      rfl

theorem printMembersText_map_data (l : List (CStr × ApiData)) (precom : Bool) :
    printMembersText printDouble dumps (l.map fun m => ⟨m.1, .data m.2⟩) isjson precom =
      printDataText printDouble (l.map fun m => ⟨m.1.bytes, m.2⟩) isjson precom := by
  rw [printMembersText, printDataText, printMembers_map_data]

end

end ApiList
end MassGridMiner
