import FrameNotation.Number.Basic

namespace FrameNotation

-- What is stored under a key, when it was stored, and how often it was read since.
structure CacheEntry (α : Type) where
  key : Str
  content : α
  stamp : Float
  hits : Nat

-- A store of at most `capacity` entries, the least recently touched first. An entry older than the
-- lifetime is not read any more.
structure Cache (α : Type) where
  capacity : Nat
  lifetime : Number
  entries : List (CacheEntry α)
  capacity_pos : 0 < capacity

-- What a cache reports of its own accord.
inductive CacheEvent
  | expired (key : Str)
  | evicted (key : Str)
deriving DecidableEq

namespace Cache

variable {α : Type}

def defaultCapacity : Int := 500

def defaultLifetime : Number := .float 1800.0

-- No more entries than this appear in an overview.
def overviewLimit : Nat := 10

def create (capacity : Int) (lifetime : Number) : Except Mishap (Cache α) :=
  if h : 0 < capacity.toNat then .ok ⟨capacity.toNat, lifetime, [], h⟩ else .error .noCapacity

def size (cache : Cache α) : Nat := cache.entries.length

def find? (cache : Cache α) (key : Str) : Option (CacheEntry α) :=
  cache.entries.find? fun entry => entry.key == key

-- Entries count as present until they are read after their lifetime.
def has (cache : Cache α) (key : Str) : Bool := (cache.find? key).isSome

def withEntries (cache : Cache α) (entries : List (CacheEntry α)) : Cache α :=
  ⟨cache.capacity, cache.lifetime, entries, cache.capacity_pos⟩

def others (cache : Cache α) (key : Str) : List (CacheEntry α) :=
  cache.entries.filter fun entry => entry.key != key

def isExpired (cache : Cache α) (now : Float) (entry : CacheEntry α) : Bool :=
  cache.lifetime.less (.float (now - entry.stamp))

-- The entry under a key, which becomes the most recently touched. An expired entry goes away.
def get (cache : Cache α) (now : Float) (key : Str) :
    Option (CacheEntry α) × Cache α × List CacheEvent :=
  match cache.find? key with
  | none => (none, cache, [])
  | some entry =>
    if cache.isExpired now entry then
      (none, cache.withEntries (cache.others key), [.expired key])
    else
      let read := { entry with hits := entry.hits + 1 }
      (some read, cache.withEntries (cache.others key ++ [read]), [])

-- Stores a new entry as the most recently touched. If a new key finds the cache full, the least
-- recently touched entry goes away.
def put (cache : Cache α) (now : Float) (key : Str) (content : α) :
    CacheEntry α × Cache α × List CacheEvent :=
  let entry := ⟨key, content, now, 0⟩
  if cache.has key then (entry, cache.withEntries (cache.others key ++ [entry]), [])
  else if cache.size < cache.capacity then
    (entry, cache.withEntries (cache.entries ++ [entry]), [])
  else
    let evicted := cache.entries.head?.toList.map fun oldest => CacheEvent.evicted oldest.key
    (entry, cache.withEntries (cache.entries.tail ++ [entry]), evicted)

def clear (cache : Cache α) : Cache α := cache.withEntries []

-- The keys of the first entries, with how often each was read.
def overview (cache : Cache α) : List (Str × Nat) :=
  (cache.entries.take overviewLimit).map fun entry => (entry.key, entry.hits)

end Cache

end FrameNotation
