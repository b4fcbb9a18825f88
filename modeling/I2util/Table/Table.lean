import I2util.Library.Linked
import Mathlib.Data.List.Range

/-!
The hash table of `table.c`.

Nodes live at addresses 0, 1, ...; the `num_alist` blocks of `hint` nodes allocated
so far are the first `num_alist * hint` addresses. Bucket chains and the free list
are linked through the nodes. Keys and values are of any type; `cmp` and `hash` are
the functions the table was made with.

A failing assertion, a null pointer that is followed and a chain that does not end
all show as `none`.
-/

namespace I2util

structure I2Binding (K V : Type) where
  key : K
  value : V
  delete : Bool
  next : Option ℕ

/-- What `calloc` leaves in a new node. -/
instance {K V : Type} [Inhabited K] [Inhabited V] : Inhabited (I2Binding K V) :=
  ⟨⟨default, default, false, none⟩⟩

structure I2Table (K V : Type) where
  size : UInt32
  hint : ℕ
  length : UInt32
  buckets : ℕ → Option ℕ
  freelist : Option ℕ
  nodes : ℕ → I2Binding K V
  numAlist : ℕ
  sizeAlist : ℕ
  inIterate : Bool
  deleteNodes : UInt32

inductive Link
  | bucket (i : ℕ)
  | freelist
  | next (a : ℕ)
  deriving DecidableEq

/-- Whether the two allocations that a call may make succeed. -/
structure Alloc where
  realloc : Bool
  calloc : Bool
  deriving DecidableEq

variable {K V : Type}

namespace I2Table

def capacity (t : I2Table K V) : ℕ := t.numAlist * t.hint

/-- `*p` -/
def deref (t : I2Table K V) : Link → Option ℕ
  | .bucket i => t.buckets i
  | .freelist => t.freelist
  | .next a => (t.nodes a).next

/-- `*p = q` -/
def assign (t : I2Table K V) (p : Link) (q : Option ℕ) : I2Table K V :=
  match p with
  | .bucket i => { t with buckets := Function.update t.buckets i q }
  | .freelist => { t with freelist := q }
  | .next a => { t with nodes := Function.update t.nodes a { t.nodes a with next := q } }

/-- The search loops: `test` is the condition of their `break`. -/
def search (t : I2Table K V) (test : I2Binding K V → Bool) (i : ℕ) :
    Option (Link × Option ℕ) :=
  Linked.search .next t.deref (fun a => test (t.nodes a)) (t.capacity + 1) (.bucket i)

def index (hash : K → UInt32) (t : I2Table K V) (key : K) : ℕ := (hash key % t.size).toNat

end I2Table

open I2Table

def freeBinding (t : I2Table K V) (node : ℕ) : I2Table K V :=
  (t.assign (.next node) t.freelist).assign .freelist (some node)

/-- `table->freelist = node->next; node->next = NULL;` -/
def takeFree (t : I2Table K V) (node : ℕ) : I2Table K V :=
  (t.assign .freelist (t.nodes node).next).assign (.next node) none

section Alloc

variable [Inhabited K] [Inhabited V]

def pushNew (t : I2Table K V) (a : ℕ) : I2Table K V :=
  freeBinding { t with nodes := Function.update t.nodes a default } a

def allocFreelist (t : I2Table K V) (mem : Alloc) : ℤ × I2Table K V :=
  if t.numAlist ≤ t.sizeAlist ∧ mem.realloc = false then (-1, t)
  else
    let t :=
      if t.numAlist ≤ t.sizeAlist then { t with sizeAlist := t.sizeAlist + t.hint } else t
    if mem.calloc = false then (-1, t)
    else
      -- the addresses of the new block follow those of the older ones
      let block := t.numAlist * t.hint
      let t := { t with numAlist := t.numAlist + 1 }
      (0, (List.range t.hint).foldl (fun t i => pushNew t (block + i)) t)

/-- `alloc_binding`. The node is `none` when memory runs out. -/
def allocBinding (t : I2Table K V) (mem : Alloc) : Option (Option ℕ × I2Table K V) :=
  let (rc, t) := if t.freelist = none then allocFreelist t mem else (0, t)
  if rc ≠ 0 then some (none, t)
  else
    match t.freelist with
    | none => none
    | some node =>
        some (some node, takeFree t node)

end Alloc

def i2HashNumEntries (t : I2Table K V) : UInt32 :=
  if t.length < t.deleteNodes then 0 else t.length - t.deleteNodes

def primes : List ℕ := [31, 67, 127, 251, 509, 1021, 2053, 4093, 8191, 16381, 32771, 65521]

/-- The loop that goes down the primes to the first one not above `hint`. -/
def primeFor (hint : ℕ) : ℕ → ℕ
  | 0 => primes.getD 0 0
  | i + 1 => if hint < primes.getD (i + 1) 0 then primeFor hint i else primes.getD (i + 1) 0

/-- `table` and `buckets` say whether the allocations of the table and of its
buckets succeed. The nodes are counted with an `unsigned int`, so `hint` must be
below 2^32. -/
def i2HashInit [Inhabited K] [Inhabited V] (hint : UInt32) (table buckets : Bool)
    (mem : Alloc) : Option (I2Table K V) :=
  if table = false ∨ buckets = false then none
  else
    let size := primeFor hint.toNat (primes.length - 1)
    let (rc, t) := allocFreelist
      { size := size.toUInt32
        hint := if hint.toNat ≠ 0 then hint.toNat else size
        length := 0
        buckets := fun _ => none
        freelist := none
        nodes := fun _ => default
        numAlist := 0
        sizeAlist := 0
        inIterate := false
        deleteNodes := 0 } mem
    if rc ≠ 0 then none else some t

section Operations

variable (cmp : K → K → ℤ) (hash : K → UInt32)

/-- `q = *p; *p = q->next; free_binding(table,q); table->length--;` -/
def unlink (t : I2Table K V) (p : Link) (q : ℕ) : I2Table K V :=
  let t := freeBinding (t.assign p (t.nodes q).next) q
  { t with length := t.length - 1 }

/-- `(*p)->delete = True; table->delete_nodes++;` -/
def mark (t : I2Table K V) (q : ℕ) : I2Table K V :=
  { t with
    nodes := Function.update t.nodes q { t.nodes q with delete := true }
    deleteNodes := t.deleteNodes + 1 }

def i2HashDelete (t : I2Table K V) (key : K) : Option (ℤ × I2Table K V) :=
  match t.search (fun b => !b.delete && cmp key b.key = 0) (t.index hash key) with
  | none => none
  | some (_, none) => some (-1, t)
  | some (p, some q) =>
      if t.inIterate = true then some (0, mark t q) else some (0, unlink t p q)

def i2HashFetch (t : I2Table K V) (key : K) : Option (Option V) :=
  match t.search (fun b => !b.delete && cmp key b.key = 0) (t.index hash key) with
  | none => none
  | some (_, none) => some none
  | some (_, some p) => some (some (t.nodes p).value)

def insert (t : I2Table K V) (i q : ℕ) (key : K) (value : V) : I2Table K V :=
  { t with
    nodes := Function.update t.nodes q ⟨key, value, false, t.buckets i⟩
    buckets := Function.update t.buckets i (some q)
    length := t.length + 1 }

def setValue (t : I2Table K V) (q : ℕ) (value : V) : I2Table K V :=
  { t with nodes := Function.update t.nodes q { t.nodes q with value := value } }

def i2HashStore [Inhabited K] [Inhabited V] (t : I2Table K V) (key : K) (value : V)
    (mem : Alloc) : Option (ℤ × I2Table K V) :=
  if t.inIterate = true then none
  else if t.size = 0xFFFFFFFF then some (-1, t)
  else
    match t.search (fun b => cmp key b.key = 0) (t.index hash key) with
    | none => none
    | some (_, some q) => some (0, setValue t q value)
    | some (_, none) =>
        match allocBinding t mem with
        | none => none
        | some (none, t) => some (-1, t)
        | some (some q, t) => some (0, insert t (t.index hash key) q key value)

/-- The inner loop of `I2HashClean`. -/
def cleanBucket (i : ℕ) : ℕ → I2Table K V → Option (I2Table K V)
  | 0, _ => none
  | n + 1, t =>
      match t.buckets i with
      | none => some t
      | some q => cleanBucket i n (unlink t (.bucket i) q)

def cleanBuckets : List ℕ → I2Table K V → Option (I2Table K V)
  | [], t => some t
  | i :: is, t =>
      if t.length = 0 then some t
      else (cleanBucket i (t.capacity + 1) t).bind (cleanBuckets is)

def i2HashClean (t : I2Table K V) : Option (I2Table K V) :=
  if t.inIterate = true then none
  else
    match cleanBuckets (List.range t.size.toNat) t with
    | none => none
    | some t => if t.length = 0 then some t else none

/-! ### Iteration -/

/-- A computation that may call the functions of the table that are allowed while
`I2HashIterate` is running. -/
inductive TableProg (K V : Type) (α : Type) : Type
  | ret (a : α)
  | numEntries (k : UInt32 → TableProg K V α)
  | fetch (key : K) (k : Option V → TableProg K V α)
  | delete (key : K) (k : ℤ → TableProg K V α)

/-- What happens in the course of an iteration: the function is called for a
pair, calls the table and gets an answer, or returns. -/
inductive Event (K V : Type) : Type
  | visit (key : K) (value : V)
  | numEntries (n : UInt32)
  | fetch (key : K) (r : Option V)
  | delete (key : K) (rc : ℤ)
  | ret (go : Bool)

def TableProg.run {α : Type} (t : I2Table K V) :
    TableProg K V α → Option (α × I2Table K V × List (Event K V))
  | .ret a => some (a, t, [])
  | .numEntries k =>
      let n := i2HashNumEntries t
      (TableProg.run t (k n)).map fun r => (r.1, r.2.1, .numEntries n :: r.2.2)
  | .fetch key k =>
      match i2HashFetch cmp hash t key with
      | none => none
      | some v =>
          (TableProg.run t (k v)).map fun r => (r.1, r.2.1, .fetch key v :: r.2.2)
  | .delete key k =>
      match i2HashDelete cmp hash t key with
      | none => none
      | some (rc, t) =>
          (TableProg.run t (k rc)).map fun r => (r.1, r.2.1, .delete key rc :: r.2.2)

/-- `I2HashIterateFunc`. The data behind `app_data` are of type `σ`. -/
abbrev I2HashIterateFunc (K V σ : Type) := K → V → σ → TableProg K V (Bool × σ)

/-- What a part of an iteration leaves behind. `go` is false when the function
has returned False. -/
structure IterRun (K V σ : Type) where
  go : Bool
  table : I2Table K V
  data : σ
  events : List (Event K V)

def IterRun.after {σ : Type} (events : List (Event K V)) (r : IterRun K V σ) :
    IterRun K V σ :=
  { r with events := events ++ r.events }

variable {σ : Type}

def visitNode (ifunc : I2HashIterateFunc K V σ) (t : I2Table K V) (q : ℕ) (data : σ) :
    Option (IterRun K V σ) :=
  let b := t.nodes q
  ((ifunc b.key b.value data).run cmp hash t).map fun r =>
    ⟨r.1.1, r.2.1, r.1.2, .visit b.key b.value :: r.2.2 ++ [.ret r.1.1]⟩

/-- The loop over one chain. The next node is read after the function returns. -/
def visitChain (ifunc : I2HashIterateFunc K V σ) :
    ℕ → Option ℕ → I2Table K V → σ → Option (IterRun K V σ)
  | 0, _, _, _ => none
  | _ + 1, none, t, data => some ⟨true, t, data, []⟩
  | n + 1, some q, t, data =>
      -- a marked node is passed over
      if (t.nodes q).delete = true then visitChain ifunc n (t.nodes q).next t data
      else
        match visitNode cmp hash ifunc t q data with
        | none => none
        | some r =>
            if r.go = true then
              (visitChain ifunc n (r.table.nodes q).next r.table r.data).map (.after r.events)
            else some r

def visitBuckets (ifunc : I2HashIterateFunc K V σ) :
    List ℕ → I2Table K V → σ → Option (IterRun K V σ)
  | [], t, data => some ⟨true, t, data, []⟩
  | i :: is, t, data =>
      match visitChain cmp hash ifunc (t.capacity + 1) (t.buckets i) t data with
      | none => none
      | some r =>
          if r.go = true then (visitBuckets ifunc is r.table r.data).map (.after r.events)
          else some r

def purge (t : I2Table K V) (p : Link) (q : ℕ) : I2Table K V :=
  { unlink t p q with deleteNodes := t.deleteNodes - 1 }

/-- The inner loop that purges the marked nodes, with `p` at a link. -/
def purgeChain : ℕ → Link → I2Table K V → Option (I2Table K V)
  | 0, _, _ => none
  | n + 1, p, t =>
      match t.deref p with
      | none => some t
      | some q =>
          if t.deleteNodes = 0 then some t
          else if (t.nodes q).delete = true then purgeChain n p (purge t p q)
          else purgeChain n (.next q) t

def purgeBuckets : List ℕ → I2Table K V → Option (I2Table K V)
  | [], t => some t
  | i :: is, t =>
      if t.deleteNodes = 0 then some t
      else (purgeChain (t.capacity + 1) (.bucket i) t).bind (purgeBuckets is)

def i2HashIterate (t : I2Table K V) (ifunc : I2HashIterateFunc K V σ) (data : σ) :
    Option (IterRun K V σ) :=
  if t.inIterate = true then none
  else
    match visitBuckets cmp hash ifunc (List.range t.size.toNat)
      { t with inIterate := true, deleteNodes := 0 } data with
    | none => none
    | some r =>
        -- the nodes marked by the calls are unlinked at the end
        (purgeBuckets (List.range t.size.toNat) r.table).map fun t =>
          { r with table := { t with inIterate := false } }

end Operations

end I2util
