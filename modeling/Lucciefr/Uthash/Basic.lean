import Mathlib.Data.Nat.Notation
import Lucciefr.Base.Heap
import Lucciefr.Platform

/-!
# The hash table macros

The model of `core/uthash.h`. The elements of a table are structures with a hash handle
`hh`, which puts them on two lists: the list of all elements in the order in which they
were added (`prev` and `next`), and the list of the elements in one bucket (`hh_prev` and
`hh_next`). A table is known by the pointer `head` to its first element, which is `NULL`
for the empty table; `head->hh.tbl` leads to everything else.

`ELMT_FROM_HH` and `HH_FROM_ELMT` go between an element and its handle by the constant
offset `hho`: here both have one address. The key of a handle is the string of the `keylen`
bytes that `key` points to, so that two keys are equal if `HASH_KEYCMP` says so for equal
lengths. The hash function `HASH_FCN` is a parameter, and `HASH_JEN` is its default. There
is no Bloom filter, and `malloc` grants what it is asked for.

The counters of the tables and the buckets are of type `unsigned`: they are natural numbers
here, with each wrap written out. So is the number of bytes for the new buckets of an
expansion, where `unsigned long` has the width of `size_t`.
-/

namespace Lucciefr.Uthash

/-- The conversion to `unsigned`. -/
def unsigned (value : ℕ) : ℕ :=
  value % 2 ^ 32

/-- `value - 1U` -/
def decrement (value : ℕ) : ℕ :=
  unsigned (value + (2 ^ 32 - 1))

/-- `x / y` for `unsigned`. -/
def divide (x y : ℕ) : Except Fault ℕ :=
  if y = 0 then .error .divisionByZero else .ok (x / y)

/-- `UT_hash_handle` -/
structure HashHandle where
  tbl : Pointer
  prev : Pointer
  next : Pointer
  hhPrev : Pointer
  hhNext : Pointer
  key : List UInt8
  hashv : UInt32
deriving DecidableEq

/-- A structure of the application, with the fields which are not its handle as `value`. -/
structure Element (Value : Type) where
  hh : HashHandle
  value : Value
deriving DecidableEq

/-- `UT_hash_bucket` -/
structure HashBucket where
  hhHead : Pointer
  count : ℕ
  expandMult : ℕ
deriving DecidableEq

/-- `UT_hash_table` -/
structure HashTable where
  buckets : List HashBucket
  numBuckets : ℕ
  log2NumBuckets : ℕ
  numItems : ℕ
  tail : Pointer
  idealChainMaxlen : ℕ
  nonidealItems : ℕ
  ineffExpands : ℕ
  noexpand : Bool
deriving DecidableEq

/-- All elements, all tables, and the variable `head` of one table. -/
structure Hash (Value : Type) where
  elements : Heap (Element Value)
  tables : Heap HashTable
  head : Pointer

/-- A handle which `calloc` has cleared. -/
def HashHandle.zero : HashHandle where
  tbl := none
  prev := none
  next := none
  hhPrev := none
  hhNext := none
  key := []
  hashv := 0

/-- A bucket which `memset` has cleared. -/
def HashBucket.zero : HashBucket where
  hhHead := none
  count := 0
  expandMult := 0

/-- `HASH_INITIAL_NUM_BUCKETS` -/
def initialNumBuckets : ℕ := 32

/-- `HASH_INITIAL_NUM_BUCKETS_LOG2` -/
def initialNumBucketsLog2 : ℕ := 5

/-- `HASH_BKT_CAPACITY_THRESH` -/
def bktCapacityThresh : ℕ := 10

/-- `sizeof(UT_hash_bucket)` -/
def sizeofBucket (build : Build) : ℕ :=
  build.sizeofPointer + 8

/-- What is left of a key whose length is converted to `unsigned`. -/
def cutKey (keyptr : List UInt8) : List UInt8 :=
  keyptr.take (unsigned keyptr.length)

/-- `HASH_TO_BKT` -/
def toBkt (hashv : UInt32) (numBkts : ℕ) : ℕ :=
  hashv.toNat &&& decrement numBkts

/-- `buckets[bkt] = bucket` -/
def HashTable.setBucket (table : HashTable) (bkt : ℕ) (bucket : HashBucket) : HashTable :=
  { table with buckets := table.buckets.set bkt bucket }

/-- `buckets[bkt]` -/
def bucketAt (buckets : List HashBucket) (bkt : ℕ) : Except Fault HashBucket :=
  match buckets[bkt]? with
  | none => .error .outOfBounds
  | some bucket => .ok bucket

/-- No element and no table. -/
def Hash.empty (Value : Type) : Hash Value where
  elements := Heap.empty _
  tables := Heap.empty _
  head := none

variable {Value : Type}

/-- Write to the handle of an element. -/
def Element.withHandle (element : Element Value) (change : HashHandle → HashHandle) :
    Element Value :=
  { element with hh := change element.hh }

/-- Write to the handle behind a pointer. -/
def modifyHandle (elements : Heap (Element Value)) (hhp : Pointer)
    (change : HashHandle → HashHandle) : Except Fault (Heap (Element Value)) :=
  elements.modify hhp fun element => element.withHandle change

/-- Write to the handle behind a pointer which may be `NULL`. -/
def modifyHandleUnlessNull (elements : Heap (Element Value)) (hhp : Pointer)
    (change : HashHandle → HashHandle) : Except Fault (Heap (Element Value)) :=
  elements.modifyUnlessNull hhp fun element => element.withHandle change

namespace Hash

/-- `(head)->hh.tbl` -/
def tbl (hash : Hash Value) : Except Fault Pointer := do
  let element ← hash.elements.load hash.head
  .ok element.hh.tbl

/-- `*(head)->hh.tbl` -/
def table (hash : Hash Value) : Except Fault HashTable := do
  hash.tables.load (← hash.tbl)

/-- Write to the table `(head)->hh.tbl`. -/
def modifyTable (hash : Hash Value) (change : HashTable → HashTable) :
    Except Fault (Hash Value) := do
  let tables ← hash.tables.modify (← hash.tbl) change
  .ok { hash with tables := tables }

end Hash

/-- The loop of `HASH_FIND_IN_BKT`, from `out` on. -/
def findInBktFrom (elements : Heap (Element Value)) (keyptr : List UInt8) : (turns : ℕ) →
    (out : Pointer) → Except Fault Pointer
  | _, none => .ok none
  | 0, some _ => .error .divergence
  | turns + 1, some out => do
      let element ← elements.load (some out)
      if element.hh.key = keyptr then
        .ok (some out)
      else
        findInBktFrom elements keyptr turns element.hh.hhNext

/-- `HASH_FIND_IN_BKT` -/
def findInBkt (elements : Heap (Element Value)) (bucket : HashBucket) (keyptr : List UInt8) :
    Except Fault Pointer :=
  findInBktFrom elements keyptr elements.bound bucket.hhHead

/-- The links which make a handle the first one of a bucket, as both `HASH_ADD_TO_BKT`
and `HASH_EXPAND_BUCKETS` write them. -/
def pushHandle (elements : Heap (Element Value)) (hhHead : Pointer) (addhh : ℕ) :
    Except Fault (Heap (Element Value)) := do
  let elements ← modifyHandle elements (some addhh) fun hh =>
    { hh with hhPrev := none, hhNext := hhHead }
  modifyHandleUnlessNull elements hhHead fun hh => { hh with hhPrev := some addhh }

/-- What `HASH_EXPAND_BUCKETS` changes while it moves the handles. -/
structure Expansion (Value : Type) where
  elements : Heap (Element Value)
  newBuckets : List HashBucket
  nonidealItems : ℕ

/-- The body of the inner loop of `HASH_EXPAND_BUCKETS`, which returns `_he_hh_nxt`. -/
def moveHandle (idealChainMaxlen numBuckets : ℕ) (expansion : Expansion Value) (thh : ℕ) :
    Except Fault (Pointer × Expansion Value) := do
  let element ← expansion.elements.load (some thh)
  let bkt := toBkt element.hh.hashv (unsigned (numBuckets * 2))
  let newbkt ← bucketAt expansion.newBuckets bkt
  let count := unsigned (newbkt.count + 1)
  let nonideal := decide (idealChainMaxlen < count)
  let expandMult ← (if nonideal then divide count idealChainMaxlen else .ok newbkt.expandMult)
  let elements ← pushHandle expansion.elements newbkt.hhHead thh
  .ok (element.hh.hhNext,
    { elements := elements
      newBuckets := expansion.newBuckets.set bkt
        { hhHead := some thh, count := count, expandMult := expandMult }
      nonidealItems := if nonideal then unsigned (expansion.nonidealItems + 1)
        else expansion.nonidealItems })

/-- The inner loop of `HASH_EXPAND_BUCKETS`, from `thh` on. -/
def moveChainFrom (idealChainMaxlen numBuckets : ℕ) : (turns : ℕ) → (thh : Pointer) →
    Expansion Value → Except Fault (Expansion Value)
  | _, none, expansion => .ok expansion
  | 0, some _, _ => .error .divergence
  | turns + 1, some thh, expansion => do
      let (hhNxt, expansion) ← moveHandle idealChainMaxlen numBuckets expansion thh
      moveChainFrom idealChainMaxlen numBuckets turns hhNxt expansion

/-- The body of the outer loop of `HASH_EXPAND_BUCKETS`. -/
def moveChain (table : HashTable) (idealChainMaxlen : ℕ) (expansion : Expansion Value)
    (bktI : ℕ) : Except Fault (Expansion Value) := do
  let bucket ← bucketAt table.buckets bktI
  moveChainFrom idealChainMaxlen table.numBuckets expansion.elements.bound bucket.hhHead expansion

/-- `log2_num_buckets + 1U` -/
def HashTable.nextLog2 (table : HashTable) : ℕ :=
  unsigned (table.log2NumBuckets + 1)

/-- `num_buckets * 2U` -/
def HashTable.nextNumBuckets (table : HashTable) : ℕ :=
  unsigned (table.numBuckets * 2)

/-- `ceil(n/b)` for the number of items and the doubled number of buckets. -/
def HashTable.idealLength (table : HashTable) : ℕ :=
  unsigned ((table.numItems >>> table.nextLog2) +
    if table.numItems &&& decrement table.nextNumBuckets ≠ 0 then 1 else 0)

/-- The new buckets, as many as there is space for in the block which is allocated. -/
def HashTable.allocated (build : Build) (table : HashTable) : List HashBucket :=
  .replicate (build.mul (build.mul 2 table.numBuckets) (sizeofBucket build) / sizeofBucket build)
    .zero

/-- What `HASH_EXPAND_BUCKETS` stores in the table in the end. -/
def HashTable.expanded (table : HashTable) (expansion : Expansion Value) : HashTable :=
  let ineffExpands :=
    if expansion.nonidealItems > table.numItems >>> 1 then unsigned (table.ineffExpands + 1) else 0
  { table with
    buckets := expansion.newBuckets
    numBuckets := table.nextNumBuckets
    log2NumBuckets := table.nextLog2
    idealChainMaxlen := table.idealLength
    nonidealItems := expansion.nonidealItems
    ineffExpands := ineffExpands
    noexpand := table.noexpand || decide (ineffExpands > 1) }

/-- `HASH_EXPAND_BUCKETS` on the table behind `tbl`. -/
def expandBuckets (build : Build) (hash : Hash Value) (tbl : Pointer) :
    Except Fault (Hash Value) := do
  let table ← hash.tables.load tbl
  if table.nextLog2 < 32 then do
    let expansion ← (List.range table.numBuckets).foldlM (moveChain table table.idealLength)
      { elements := hash.elements
        newBuckets := table.allocated build
        nonidealItems := 0 }
    let tables ← hash.tables.modify tbl fun table => table.expanded expansion
    .ok { hash with elements := expansion.elements, tables := tables }
  else
    .error .invalidShift

/-- `HASH_ADD_TO_BKT` on a bucket of the table of `head`. -/
def addToBkt (build : Build) (hash : Hash Value) (bkt addhh : ℕ) : Except Fault (Hash Value) := do
  let table ← hash.table
  let bucket ← bucketAt table.buckets bkt
  let bucket := { bucket with count := unsigned (bucket.count + 1) }
  let elements ← pushHandle hash.elements bucket.hhHead addhh
  let hash ← { hash with elements := elements }.modifyTable fun table =>
    table.setBucket bkt { bucket with hhHead := some addhh }
  let added ← hash.elements.load (some addhh)
  let table ← hash.tables.load added.hh.tbl
  if bucket.count ≥ unsigned ((bucket.expandMult + 1) * bktCapacityThresh) ∧
      table.noexpand = false then
    expandBuckets build hash added.hh.tbl
  else
    .ok hash

/-- What `HASH_MAKE_TABLE` stores in a new table. -/
def HashTable.initial (tail : Pointer) : HashTable where
  buckets := List.replicate initialNumBuckets .zero
  numBuckets := initialNumBuckets
  log2NumBuckets := initialNumBucketsLog2
  numItems := 0
  tail := tail
  idealChainMaxlen := 0
  nonidealItems := 0
  ineffExpands := 0
  noexpand := false

/-- `HASH_MAKE_TABLE` -/
def makeTable (hash : Hash Value) : Except Fault (Hash Value) := do
  let (tbl, tables) := hash.tables.alloc (.initial hash.head)
  let elements ← modifyHandle hash.elements hash.head fun hh => { hh with tbl := some tbl }
  .ok { hash with elements := elements, tables := tables }

/-- `HASH_APPEND_LIST` -/
def appendList (hash : Hash Value) (add : ℕ) : Except Fault (Hash Value) := do
  let table ← hash.table
  let elements ← modifyHandle hash.elements (some add) fun hh =>
    { hh with next := none, prev := table.tail }
  let elements ← modifyHandle elements table.tail fun hh => { hh with next := some add }
  { hash with elements := elements }.modifyTable fun table => { table with tail := some add }

/-- The part of `HASH_ADD_KEYPTR` in which the element joins the list of all elements. -/
def addToList (hash : Hash Value) (add : ℕ) : Except Fault (Hash Value) := do
  match hash.head with
  | none => do
      let elements ← modifyHandle hash.elements (some add) fun hh =>
        { hh with next := none, prev := none }
      makeTable { hash with elements := elements, head := some add }
  | some _ => do
      let tbl ← hash.tbl
      let elements ← modifyHandle hash.elements (some add) fun hh => { hh with tbl := tbl }
      appendList { hash with elements := elements } add

/-- `HASH_ADD_KEYPTR` -/
def hashAddKeyptr (build : Build) (hashFcn : List UInt8 → UInt32) (hash : Hash Value)
    (keyptr : List UInt8) (add : ℕ) : Except Fault (Hash Value) := do
  let elements ← modifyHandle hash.elements (some add) fun hh =>
    { hh with hashv := hashFcn keyptr, key := cutKey keyptr }
  let hash ← addToList { hash with elements := elements } add
  let hash ← hash.modifyTable fun table => { table with numItems := unsigned (table.numItems + 1) }
  let added ← hash.elements.load (some add)
  let table ← hash.table
  addToBkt build hash (toBkt added.hh.hashv table.numBuckets) add

/-- `HASH_FIND` -/
def hashFind (hashFcn : List UInt8 → UInt32) (hash : Hash Value) (keyptr : List UInt8) :
    Except Fault Pointer :=
  match hash.head with
  | none => .ok none
  | some _ => do
      let table ← hash.table
      let bucket ← bucketAt table.buckets (toBkt (hashFcn keyptr) table.numBuckets)
      findInBkt hash.elements bucket keyptr

/-- `HASH_DEL_IN_BKT` on a bucket of the table of `head`. -/
def delInBkt (hash : Hash Value) (bkt hhDel : ℕ) : Except Fault (Hash Value) := do
  let table ← hash.table
  let bucket ← bucketAt table.buckets bkt
  let del ← hash.elements.load (some hhDel)
  let elements ← modifyHandleUnlessNull hash.elements del.hh.hhPrev fun hh =>
    { hh with hhNext := del.hh.hhNext }
  let elements ← modifyHandleUnlessNull elements del.hh.hhNext fun hh =>
    { hh with hhPrev := del.hh.hhPrev }
  { hash with elements := elements }.modifyTable fun table =>
    table.setBucket bkt
      { bucket with
        count := decrement bucket.count
        hhHead := if bucket.hhHead = some hhDel then del.hh.hhNext else bucket.hhHead }

/-- The part of `HASH_DELETE` in which the element leaves the list of all elements. -/
def delInList (hash : Hash Value) (delptr : ℕ) : Except Fault (Hash Value) := do
  let del ← hash.elements.load (some delptr)
  let hash ← hash.modifyTable fun table =>
    { table with tail := if table.tail = some delptr then del.hh.prev else table.tail }
  let elements ← modifyHandleUnlessNull hash.elements del.hh.prev fun hh =>
    { hh with next := del.hh.next }
  let elements ← modifyHandleUnlessNull elements del.hh.next fun hh =>
    { hh with prev := del.hh.prev }
  .ok { hash with
    elements := elements
    head := if del.hh.prev = none then del.hh.next else hash.head }

/-- `HASH_CLEAR` -/
def hashClear (hash : Hash Value) : Except Fault (Hash Value) :=
  match hash.head with
  | none => .ok hash
  | some _ => do
      let tables ← hash.tables.release (← hash.tbl)
      .ok { hash with tables := tables, head := none }

/-- `HASH_DELETE` -/
def hashDelete (hash : Hash Value) (delptr : ℕ) : Except Fault (Hash Value) := do
  let del ← hash.elements.load (some delptr)
  if del.hh.prev = none ∧ del.hh.next = none then do
    let tables ← hash.tables.release (← hash.tbl)
    .ok { hash with tables := tables, head := none }
  else do
    let hash ← delInList hash delptr
    let table ← hash.table
    let hash ← delInBkt hash (toBkt del.hh.hashv table.numBuckets) delptr
    hash.modifyTable fun table => { table with numItems := decrement table.numItems }

/-- `HASH_REPLACE` -/
def hashReplace (build : Build) (hashFcn : List UInt8 → UInt32) (hash : Hash Value)
    (keyptr : List UInt8) (add : ℕ) : Except Fault (Pointer × Hash Value) := do
  let replaced ← hashFind hashFcn hash keyptr
  let hash ← match replaced with
    | none => .ok hash
    | some delptr => hashDelete hash delptr
  let hash ← hashAddKeyptr build hashFcn hash keyptr add
  .ok (replaced, hash)

/-- `HASH_COUNT` -/
def hashCount (hash : Hash Value) : Except Fault ℕ :=
  match hash.head with
  | none => .ok 0
  | some _ => do
      let table ← hash.table
      .ok table.numItems

/-- The loop of `HASH_ITER`, from `el` on. The body of the loop changes a state of its own
and not the table. -/
def hashIterFrom {State : Type} (elements : Heap (Element Value))
    (body : State → Element Value → State) : (turns : ℕ) → State → (el : Pointer) →
    Except Fault State
  | _, state, none => .ok state
  | 0, _, some _ => .error .divergence
  | turns + 1, state, some el => do
      let element ← elements.load (some el)
      hashIterFrom elements body turns (body state element) element.hh.next

/-- `HASH_ITER` -/
def hashIter {State : Type} (hash : Hash Value) (body : State → Element Value → State)
    (state : State) : Except Fault State :=
  hashIterFrom hash.elements body hash.elements.bound state hash.head

/-- `HASH_JEN_MIX` -/
def hashJenMix (a b c : UInt32) : UInt32 × UInt32 × UInt32 :=
  let a := (a - b - c) ^^^ (c >>> 13)
  let b := (b - c - a) ^^^ (a <<< 8)
  let c := (c - a - b) ^^^ (b >>> 13)
  let a := (a - b - c) ^^^ (c >>> 12)
  let b := (b - c - a) ^^^ (a <<< 16)
  let c := (c - a - b) ^^^ (b >>> 5)
  let a := (a - b - c) ^^^ (c >>> 3)
  let b := (b - c - a) ^^^ (a <<< 10)
  let c := (c - a - b) ^^^ (b >>> 15)
  (a, b, c)

/-- A byte of the key at its place in a word; the `switch` of `HASH_JEN` passes over the
bytes which are not there. -/
def keyByte (key : List UInt8) (index : ℕ) (place : UInt32) : UInt32 :=
  (key.getD index 0).toUInt32 <<< place

/-- Four bytes of the key. -/
def keyWord (key : List UInt8) (index : ℕ) : UInt32 :=
  keyByte key index 0 + keyByte key (index + 1) 8 + keyByte key (index + 2) 16 +
    keyByte key (index + 3) 24

/-- The loop of `HASH_JEN` over blocks of twelve bytes, and the rest of the key. -/
def hashJenBlocks : (blocks : ℕ) → (key : List UInt8) → (i j hashv : UInt32) →
    (UInt32 × UInt32 × UInt32) × List UInt8
  | 0, key, i, j, hashv => ((i, j, hashv), key)
  | blocks + 1, key, i, j, hashv =>
      let (i, j, hashv) := hashJenMix (i + keyWord key 0) (j + keyWord key 4)
        (hashv + keyWord key 8)
      hashJenBlocks blocks (key.drop 12) i j hashv

/-- `HASH_JEN`, which is `HASH_FCN` by default. -/
def hashJen (key : List UInt8) : UInt32 :=
  let key := cutKey key
  let ((i, j, hashv), rest) := hashJenBlocks (key.length / 12) key 0x9e3779b9 0x9e3779b9 0xfeedbeef
  let hashv := hashv + UInt32.ofNat key.length
  let hashv := hashv + keyByte rest 10 24 + keyByte rest 9 16 + keyByte rest 8 8
  (hashJenMix (i + keyWord rest 0) (j + keyWord rest 4) hashv).2.2

end Lucciefr.Uthash
