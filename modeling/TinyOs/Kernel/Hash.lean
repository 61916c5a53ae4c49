import TinyOs.Basic
import TinyOs.Lib.Buckets

/-!
The chained hash table of `lib/kernel/hash.c`. A table is its element count, its bucket count
and its buckets, each the list of its elements from the front; `hash` and `less` are the
functions `hash_init` stores, and the element type stands for `struct hash_elem *`, compared by
address.

`find_bucket` picks bucket `hash (e) & (bucket_cnt - 1)`; `find_elem` returns the first
element of that bucket that is neither `less` than `e` nor greater. `insert_elem` pushes on the
front of a bucket and `remove_elem` unlinks an element from the bucket it is in. `rehash` sizes
the table to half the element count rounded down to a power of two, at least 4, and moves
every element to the front of its new bucket, old bucket by old bucket; when its `malloc`
fails (`ok = false`) the old buckets stay. `hash_delete` of an element that is not there
returns `NULL` (its `ASSERT` tests a non-null string).

`hash_apply`, the iterators, `hash_destroy` and the hash functions on bytes, strings and
integers are not modelled.
-/

namespace TinyOs

/-- `struct hash`, without the functions and `aux` it stores. -/
structure HashTable (α : Type) where
  elemCnt : ℕ
  bucketCnt : ℕ
  buckets : List (List α)
  deriving DecidableEq, Repr

/-- The operations a caller makes on a table. -/
inductive HashOp (α : Type) where
  | insert (e : α)
  | replace (e : α)
  | find (e : α)
  | delete (e : α)
  | clear
  deriving DecidableEq, Repr

/-- `turn_off_least_1bit`. -/
def turnOffLeast1bit (x : ℕ) : ℕ := x &&& (x - 1)

/-- `is_power_of_2`. -/
def isPowerOf2 (x : ℕ) : Bool := x != 0 && turnOffLeast1bit x == 0

/-- `while (!is_power_of_2 (n)) n = turn_off_least_1bit (n)`, for at most `fuel` rounds;
`rehash` runs it with `fuel = n`, more rounds than it takes. -/
def roundDownPow2 : ℕ → ℕ → ℕ
  | 0, n => n
  | fuel + 1, n => if isPowerOf2 n then n else roundDownPow2 fuel (turnOffLeast1bit n)

/-- `rehash`'s bucket count for `elem_cnt` elements. -/
def newBucketCnt (elemCnt : ℕ) : ℕ :=
  let n := elemCnt / 2
  let n := if n < 4 then 4 else n
  roundDownPow2 n n

namespace HashTable

variable {α : Type} (hash : α → ℕ) (less : α → α → Bool) (h : HashTable α)

/-- `find_bucket`: the index of `e`'s bucket. -/
def findBucket (e : α) : ℕ := hash e &&& (h.bucketCnt - 1)

/-- `find_elem`: the first element of bucket `i` equal to `e` under `less`. -/
def findElem (i : ℕ) (e : α) : Option α :=
  (h.buckets.getD i []).find? fun hi => !less hi e && !less e hi

/-- `insert_elem`. -/
def insertElem (i : ℕ) (e : α) : HashTable α :=
  { h with
    elemCnt := h.elemCnt + 1
    buckets := h.buckets.modify i (e :: ·) }

/-- `remove_elem`: `list_remove` unlinks `e` from the bucket it is in. -/
def removeElem [DecidableEq α] (e : α) : HashTable α :=
  { h with
    elemCnt := h.elemCnt - 1
    buckets := h.buckets.map (·.erase e) }

/-- `rehash`'s move loop: each element of each old bucket, front to back, goes on the front of
its bucket among `cnt`. -/
def moveElems (cnt : ℕ) (old nb : List (List α)) : List (List α) :=
  old.foldl (fun nb b => b.foldl (fun nb e => nb.modify (hash e &&& (cnt - 1)) (e :: ·)) nb) nb

/-- `rehash`, whose `malloc` of the new buckets succeeds when `ok`. -/
def rehash (ok : Bool) : HashTable α :=
  let cnt := newBucketCnt h.elemCnt
  if cnt = h.bucketCnt then h
  else if ok then
    { h with
      bucketCnt := cnt
      buckets := moveElems hash cnt h.buckets (List.replicate cnt []) }
  else h

/-- `hash_insert`: `new` goes in unless an equal element is there, which is returned. -/
def hashInsert (new : α) (ok : Bool) : HashTable α × Option α :=
  let i := h.findBucket hash new
  let old := h.findElem less i new
  let h' := if old = none then h.insertElem i new else h
  (h'.rehash hash ok, old)

/-- `hash_replace`: `new` goes in, in place of an equal element, which is returned. -/
def hashReplace [DecidableEq α] (new : α) (ok : Bool) : HashTable α × Option α :=
  let i := h.findBucket hash new
  let old := h.findElem less i new
  let h' := match old with
    | some o => h.removeElem o
    | none => h
  ((h'.insertElem i new).rehash hash ok, old)

/-- `hash_find`. -/
def hashFind (e : α) : Option α := h.findElem less (h.findBucket hash e) e

/-- `hash_delete`: the equal element, if any, is removed and returned. -/
def hashDelete [DecidableEq α] (e : α) (ok : Bool) : HashTable α × Option α :=
  match h.findElem less (h.findBucket hash e) e with
  | some found => ((h.removeElem found).rehash hash ok, some found)
  | none => (h, none)

/-- `hash_clear` without a destructor: every bucket is emptied. -/
def hashClear : HashTable α :=
  { h with
    elemCnt := 0
    buckets := h.buckets.map fun _ => [] }

/-- One operation, with the outcome of `rehash`'s `malloc`. -/
def hashStep [DecidableEq α] : HashOp α → Bool → HashTable α × Option α
  | .insert e, ok => h.hashInsert hash less e ok
  | .replace e, ok => h.hashReplace hash less e ok
  | .find e, _ => (h, h.hashFind hash less e)
  | .delete e, ok => h.hashDelete hash less e ok
  | .clear, _ => (h.hashClear, none)

/-- A sequence of operations and the results they return. -/
def hashRun [DecidableEq α] : HashTable α → List (HashOp α × Bool) → HashTable α × List (Option α)
  | h, [] => (h, [])
  | h, (op, ok) :: ops =>
    let (h', r) := h.hashStep hash less op ok
    let (h'', rs) := hashRun h' ops
    (h'', r :: rs)

@[simp] lemma hashRun_nil [DecidableEq α] (h : HashTable α) : hashRun hash less h [] = (h, []) :=
  rfl

@[simp] lemma hashRun_cons [DecidableEq α] (h : HashTable α) (op : HashOp α) (ok : Bool)
    (ops : List (HashOp α × Bool)) :
    hashRun hash less h ((op, ok) :: ops) =
      ((hashRun hash less (h.hashStep hash less op ok).1 ops).1,
        (h.hashStep hash less op ok).2 :: (hashRun hash less (h.hashStep hash less op ok).1 ops).2) :=
  rfl

/-- The elements of all buckets. -/
def elems : List α := h.buckets.flatten

end HashTable

/-- `hash_init`, whose `malloc` of four buckets succeeds when `ok`. -/
def hashInit {α : Type} (ok : Bool) : Option (HashTable α) :=
  if ok then some ⟨0, 4, List.replicate 4 []⟩ else none

end TinyOs
