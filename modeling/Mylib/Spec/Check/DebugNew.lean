import Mylib.Spec.Check.RbTree

/-!
# `Mylib.Spec.Check.DebugNew`: the leak checker behind `operator new`

`src/public/check/debugnew.cc`. Every block from `operator new` starts with a
`mem_chunk`, and the chunks are kept in a red-black tree in the order of the
pointers handed out. The tree node is the first field of the chunk, so a chunk and
its node have one address.

What `malloc` answers is given with the call: `NULL`, or an address with the content
found there. A write behind the end of a block, a `free` of an address that is no
block and a failed `assert` have no result. A size and its chunk have to fit `size_t`
together; a size close to `2 ^ 64` makes the block too small for the chunk.

Log lines are left out, except those the destructor is there for. They write the size, a
`size_t`, with `%d`, which takes its low half as an `int`.
-/

set_option autoImplicit false

namespace Mylib.Spec.Check.DebugNew

open Mylib.Lib.RedBlack (Side)
open Mylib.Spec.Check.RbTree

abbrev Addr := UInt64

/-- `struct mem_chunk` without its node. -/
structure MemChunk where
  ptr : Addr
  size : UInt64
  file : Addr
  line : Int32
  deriving DecidableEq, Repr

/-- What stands in the line `memory leaks checked:size[%d] %s:%d line: %p`. -/
structure LeakLine where
  size : Int32
  file : Addr
  line : Int32
  ptr : Addr
  deriving DecidableEq, Repr

/-- The arguments of that line. -/
def MemChunk.leakLine (chunk : MemChunk) : LeakLine :=
  ⟨chunk.size.toUInt32.toInt32, chunk.file, chunk.line, chunk.ptr⟩

/-- `sizeof(struct mem_chunk)`. -/
def sizeofMemChunk : UInt64 := 64

/-- The checker with all memory it works on. -/
structure DebugMemCheck where
  startup : Bool
  /-- The blocks of `malloc` that are not freed, with their sizes. -/
  block : Addr → Option UInt64
  chunk : Addr → Option MemChunk
  heap : Heap Addr

/-- The answer of `malloc`. -/
abbrev Malloced := Option (Addr × RbNode Addr)

namespace DebugMemCheck

/-- `DebugMemCheck::DebugMemCheck` -/
def construct (m : DebugMemCheck) : DebugMemCheck :=
  { m with startup := true, heap := { m.heap with rbNode := none } }

/-! ### The blocks -/

def mallocBlock (p : Addr) (size : UInt64) (m : DebugMemCheck) : DebugMemCheck :=
  { m with block := Function.update m.block p (some size) }

/-- `free(p)` of the C library. -/
def freeBlock (p : Addr) (m : DebugMemCheck) : Option DebugMemCheck :=
  if (m.block p).isSome then
    some { m with
      block := Function.update m.block p none
      chunk := Function.update m.chunk p none
      heap := { m.heap with node := Function.update m.heap.node p none } }
  else none

/-- The assignments to the fields of a new chunk, in a block of `size` bytes. -/
def fillChunk (p : Addr) (size : UInt64) (junk : RbNode Addr) (c : MemChunk)
    (m : DebugMemCheck) : Option DebugMemCheck :=
  if size < sizeofMemChunk then none
  else some { m with
    chunk := Function.update m.chunk p (some c)
    heap := m.heap.set p junk }

/-! ### The tree -/

/-- The loop of `Malloc` down to an empty link. -/
def descend (m : DebugMemCheck) (ptr : Addr) : Nat → Link Addr → Option Addr →
    Option (Link Addr × Option Addr)
  | 0, _, _ => none
  | fuel + 1, link, parent => do
    match ← m.heap.follow link with
    | none => some (link, parent)
    | some p =>
      let pos ← m.chunk p
      -- assert(pos->ptr != c->ptr)
      if pos.ptr = ptr then none
      else if pos.ptr > ptr then descend m ptr fuel (.child .left p) (some p)
      else descend m ptr fuel (.child .right p) (some p)

/-- `DebugMemCheck::Malloc` -/
def malloc (fuel : Nat) (c : Addr) (m : DebugMemCheck) : Option DebugMemCheck := do
  let (link, parent) ← m.descend (← m.chunk c).ptr fuel .root none
  let h ← rbLinkNode (some c) parent link m.heap
  let h ← rbInsertColor fuel (some c) h
  some { m with heap := h }

/-- The loop of `DebugMemCheck::FindChunkNolocked`. -/
def findLoop (m : DebugMemCheck) (ptr : Addr) : Nat → Option Addr → Option (Option Addr)
  | 0, _ => none
  | _ + 1, none => some none
  | fuel + 1, some p => do
    let pos ← m.chunk p
    let n ← m.heap.node p
    if pos.ptr > ptr then findLoop m ptr fuel n.rbLeft
    else if pos.ptr < ptr then findLoop m ptr fuel n.rbRight
    else some (some p)

def findChunkNolocked (fuel : Nat) (ptr : Addr) (m : DebugMemCheck) : Option (Option Addr) :=
  m.findLoop ptr fuel m.heap.rbNode

/-- `DebugMemCheck::Free` -/
def free (fuel : Nat) (ptr : Addr) (m : DebugMemCheck) :
    Option (Option Addr × DebugMemCheck) := do
  let chunk ← m.findChunkNolocked fuel ptr
  if chunk = none then some (none, m)
  else
    let h ← rbErase fuel chunk m.heap
    some (chunk, { m with heap := h })

/-- The loop of `DebugMemCheck::~DebugMemCheck`, with the lines it logs. -/
def destructLoop (fuel : Nat) : Nat → Option Addr → DebugMemCheck →
    Option (List LeakLine × DebugMemCheck)
  | 0, _, _ => none
  | _ + 1, none, m => some ([], m)
  | rounds + 1, some chunk, m => do
    let leaked ← m.chunk chunk
    let node ← rbNext fuel (some chunk) m.heap
    let h ← rbErase fuel (some chunk) m.heap
    let m ← freeBlock chunk { m with heap := h }
    let (leaks, m) ← destructLoop fuel rounds node m
    some (leaked.leakLine :: leaks, m)

/-- `DebugMemCheck::~DebugMemCheck` -/
def destruct (fuel rounds : Nat) (m : DebugMemCheck) :
    Option (List LeakLine × DebugMemCheck) := do
  let m := { m with startup := false }
  destructLoop fuel rounds (← rbFirst fuel m.heap) m

/-! ### The operators -/

/-- `operator new` and `operator new []`. The result is the pointer handed out. -/
def operatorNew (fuel : Nat) (size : UInt64) (file : Addr) (line : Int32)
    (got : Malloced) (m : DebugMemCheck) : Option (Option Addr × DebugMemCheck) :=
  match got with
  | none => some (none, m)
  | some (p, junk) =>
    if m.startup then do
      let c := ⟨p + sizeofMemChunk, size, file, line⟩
      let m := m.mallocBlock p (size + sizeofMemChunk)
      let m ← m.fillChunk p (size + sizeofMemChunk) junk c
      let m ← m.malloc fuel p
      some (some c.ptr, m)
    else some (some p, m.mallocBlock p size)

/-- `operator new (size_t size)` -/
def newPlain (fuel : Nat) (size : UInt64) := operatorNew fuel size 0 0

/-- `operator new (size_t size, const char *file, int line)`, and the same for arrays. -/
def newAt (fuel : Nat) (size : UInt64) (file : Addr) (line : Int32) :=
  operatorNew fuel size file line

/-- `operator delete` and `operator delete []`. The one for arrays with a place does not look
for `NULL` first (`nullTest`). The result tells whether a chunk was found. -/
def operatorDelete (nullTest : Bool) (fuel : Nat) (p : Addr) (m : DebugMemCheck) :
    Option (Bool × DebugMemCheck) :=
  if nullTest ∧ p = 0 then some (false, m)
  else if m.startup then do
    let (c, m) ← m.free fuel p
    match c with
    | some c => some (true, ← m.freeBlock c)
    | none => some (false, m)
  else if p = 0 then some (false, m)
  else do some (false, ← m.freeBlock p)

/-- `operator delete (void *p)`, `operator delete (void *p, const char *file, int line)` and
`operator delete [] (void *p)` -/
def deletePlain (fuel : Nat) (p : Addr) := operatorDelete true fuel p

/-- `operator delete [] (void *p, const char *file, int line)` -/
def deleteArrayAt (fuel : Nat) (p : Addr) := operatorDelete false fuel p

/-! ### Runs -/

/-- A call of one of the operators. -/
inductive Op where
  | new (size : UInt64) (file : Addr) (line : Int32) (got : Malloced)
  | delete (nullTest : Bool) (p : Addr)

/-- What the call answers: a pointer, or whether a chunk was found. -/
inductive Answer where
  | pointer (p : Option Addr)
  | found (b : Bool)
  deriving DecidableEq, Repr

def step (fuel : Nat) (m : DebugMemCheck) : Op → Option (Answer × DebugMemCheck)
  | .new size file line got => (operatorNew fuel size file line got m).map fun r =>
      (.pointer r.1, r.2)
  | .delete nullTest p => (operatorDelete nullTest fuel p m).map fun r => (.found r.1, r.2)

def run (fuel : Nat) : List Op → DebugMemCheck → Option (List Answer × DebugMemCheck)
  | [], m => some ([], m)
  | op :: ops, m => do
    let (answer, m) ← m.step fuel op
    let (answers, m) ← run fuel ops m
    some (answer :: answers, m)

end DebugMemCheck

end Mylib.Spec.Check.DebugNew
