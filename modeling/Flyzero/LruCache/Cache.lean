import Flyzero.Lib.Buckets
import Flyzero.Lib.Loop

/-! `LruCache`: nodes in a list, by last use, and in a hash table, by key. -/
namespace Flyzero.LruCache
variable {K V U : Type*}

abbrev Ptr := Nat

structure Functors (K U : Type*) where
  hash : K → BitVec 64
  equal : K → K → Bool
  hashOf : U → BitVec 64
  equalTo : U → K → Bool

structure Node (K V : Type*) where
  deadline : Int64
  key : K
  value : V

/-- What the cache does with its allocator, and the destructions in between. -/
inductive MemoryEvent where
  | allocateNode (p : Ptr)
  | destroyNode (p : Ptr)
  | deallocateNode (p : Ptr) (n : Nat)
  | allocateBuckets (p : Ptr) (n : Nat)
  | destroyBuckets (p : Ptr) (n : Nat)
  | deallocateBuckets (p : Ptr) (n : Nat)

structure Cache (K V : Type*) where
  timeout : Int64
  nodes : Ptr → Option (Node K V)
  list : List Ptr
  hash : Buckets Ptr
  bucketPointer : Ptr
  ledger : List MemoryEvent

/-- The constructor, with the address of the first bucket array. -/
def create (timeout : Int64) (buckets : Ptr) : Cache K V :=
  { timeout, nodes := fun _ => none, list := [], hash := .empty 16 ⟨4, rfl⟩,
    bucketPointer := buckets, ledger := [.allocateBuckets buckets 16] }

namespace Cache

def size (c : Cache K V) : Nat := c.list.length

def bucketCount (c : Cache K V) : Nat := c.hash.count

def keyed (c : Cache K V) (same : K → Bool) (p : Ptr) : Bool := (c.nodes p).any fun n => same n.key

def find (fs : Functors K U) (c : Cache K V) (key : U) : Option Ptr :=
  c.hash.find? (fs.hashOf key) (c.keyed (fs.equalTo key))

/-- Construct a node and link it in both containers; memory in use is no answer of an allocator. -/
def link (c : Cache K V) (p : Ptr) (h : BitVec 64) (node : Node K V) : Option (Cache K V) :=
  if hp : c.hash.Linked p then none
  else if (c.nodes p).isSome then none
  else
    some { c with
      nodes := Function.update c.nodes p (some node)
      list := c.list ++ [p]
      hash := c.hash.insertCommit p h hp }

theorem pow2_double {n : Nat} (h : ∃ k, n = 2 ^ k) : ∃ k, n * 2 = 2 ^ k := by
  obtain ⟨k, rfl⟩ := h
  exact ⟨k + 1, (Nat.pow_succ 2 k).symm⟩

def grow (c : Cache K V) (buckets : Ptr) : Cache K V :=
  let count := c.bucketCount
  { c with
    hash := c.hash.rehash (count * 2) (pow2_double c.hash.pow2)
    bucketPointer := buckets
    ledger := c.ledger ++ [.allocateBuckets buckets (count * 2),
      .destroyBuckets c.bucketPointer count, .deallocateBuckets c.bucketPointer count] }

end Cache

/-- What a call of `insert` gets from the allocator and from the constructor of the node; `none`
and `false` are exceptions. -/
structure Supply where
  node : Option Ptr
  constructed : Bool
  buckets : Option Ptr

namespace Cache

/-- The iterator and whether it is new, or `none` for an exception. -/
def insert (fs : Functors K U) (c : Cache K V) (supply : Supply) (now : Int64) (key : K)
    (value : V) : Option (Option (Ptr × Bool) × Cache K V) :=
  match c.hash.find? (fs.hash key) (c.keyed (fs.equal key)) with
  | some it => some (some (it, false), c)
  | none =>
    match supply.node with
    | none => some (none, c)
    | some p =>
      let c := { c with ledger := c.ledger ++ [.allocateNode p] }
      if supply.constructed then
        (c.link p (fs.hash key) { deadline := now + c.timeout, key, value }).map fun c =>
          if c.size ≥ c.bucketCount then
            match supply.buckets with
            | none => (none, c)
            | some buckets => (some (p, true), c.grow buckets)
          else (some (p, true), c)
      else some (none, c)

def dispose (c : Cache K V) (p : Ptr) : Cache K V :=
  { c with
    nodes := Function.update c.nodes p none
    ledger := c.ledger ++ [.destroyNode p, .deallocateNode p 1] }

/-- Iterators that point to no node are not for the cache. -/
def erase (c : Cache K V) (it : Ptr) : Option (Cache K V) :=
  (c.nodes it).map fun _ =>
    { c with hash := c.hash.erase it, list := c.list.erase it }.dispose it

def touch (c : Cache K V) (now : Int64) (it : Ptr) : Option (Cache K V) :=
  (c.nodes it).map fun node =>
    { c with
      nodes := Function.update c.nodes it (some { node with deadline := now + c.timeout })
      list := c.list.erase it ++ [it] }

end Cache

/-- A call of `clear_expired` on its way, with the arguments its callback has been given. -/
structure Expiry (K V : Type*) where
  cache : Cache K V
  calls : List (K × V)
  count : Nat

abbrev Callback (K V : Type*) := List (K × V) → Cache K V → K → V → Bool × Cache K V

/-- One round of the loop of `clear_expired`; it leaves with what the callback threw, or with
`none` where the code would use a node that is gone. -/
def expireRound (fn : Callback K V) (now : Int64) (s : Expiry K V) :
    Expiry K V ⊕ Option (Expiry K V × Bool) :=
  match s.cache.list with
  | [] => .inr (some (s, false))
  | p :: _ =>
    match s.cache.nodes p with
    | none => .inr none
    | some node =>
      if node.deadline > now then .inr (some (s, false))
      else
        let (threw, c) := fn s.calls s.cache node.key node.value
        let calls := s.calls ++ [(node.key, node.value)]
        if threw then .inr (some ({ s with cache := c, calls }, true))
        else
          match c.nodes p with
          | none => .inr none
          | some _ =>
            .inl { cache := { c with hash := c.hash.erase p, list := c.list.tail }.dispose p,
                   calls, count := s.count + 1 }

/-- A callback that leaves the cache alone and throws as it likes. -/
def quiet (throws : List (K × V) → K × V → Bool) : Callback K V :=
  fun calls c k v => (throws calls (k, v), c)

def Cache.clearExpired (c : Cache K V) (now : Int64) (throws : List (K × V) → K × V → Bool) :
    Option (Expiry K V × Bool) :=
  (Loop.run (expireRound (quiet throws) now) (c.list.length + 1)
    { cache := c, calls := [], count := 0 }).join

inductive Op (K V U : Type*) where
  | insert (now : Int64) (key : K) (value : V) (node buckets : Ptr)
  | find (key : U)
  | erase (it : Ptr)
  | touch (now : Int64) (it : Ptr)
  | clearExpired (now : Int64) (throws : List (K × V) → K × V → Bool)

inductive Out (K V : Type*) where
  | inserted (it : Ptr) (new : Bool)
  | found (it : Option Ptr)
  | done
  | cleared (calls : List (K × V)) (count : Nat)
  | threw (calls : List (K × V))

def call (fs : Functors K U) (c : Cache K V) : Op K V U → Option (Out K V × Cache K V)
  | .insert now key value node buckets =>
    (c.insert fs ⟨some node, true, some buckets⟩ now key value).bind fun (res, c) =>
      res.map fun (it, new) => (.inserted it new, c)
  | .find key => some (.found (c.find fs key), c)
  | .erase it => (c.erase it).map fun c => (.done, c)
  | .touch now it => (c.touch now it).map fun c => (.done, c)
  | .clearExpired now throws =>
    (c.clearExpired now throws).map fun (s, threw) =>
      (if threw then .threw s.calls else .cleared s.calls s.count, s.cache)

end Flyzero.LruCache
