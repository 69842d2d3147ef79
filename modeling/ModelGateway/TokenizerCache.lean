import ModelGateway.KeyedMap
import ModelGateway.Occurrences
import ModelGateway.Utf8

/-! The caching wrapper around a tokenizer (`cache/mod.rs`, `l0.rs`, `l1.rs`): whole inputs in the
L0 cache, prefixes that end in a special token in the L1 cache. The wrapped tokenizer and the hash
of the L1 keys are parameters. Positions in a text count characters; sizes count bytes. -/
namespace ModelGateway.TokenizerCache
open Occurrences Utf8 Function

abbrev Text := List Char

abbrev TokenId := UInt32

/-- The wrapped tokenizer: its encoder, and its special token strings in the order of
`extract_special_token_strings`. An encoding is its token ids. -/
structure Tokenizer where
  encode : Text → Bool → Except String (List TokenId)
  specialTokenStrings : List Text

/-! ### Special-token boundaries -/

/-- The loop over the occurrences of one special token; `none` if it has not ended within the fuel. -/
def tokenBoundaries (text token : Text) : Nat → Nat → Option (List Nat)
  | 0, _ => none
  | fuel + 1, start =>
    match find token (text.drop start) with
    | none => some []
    | some pos =>
      let boundary := start + pos + token.length
      (tokenBoundaries text token fuel boundary).map fun more =>
        -- only boundaries that leave some suffix to tokenize
        if boundary < text.length then boundary :: more else more

def allBoundaries (text : Text) (fuel : Nat) : List Text → Option (List Nat)
  | [] => some []
  | token :: rest =>
    match tokenBoundaries text token fuel 0, allBoundaries text fuel rest with
    | some boundaries, some more => some (boundaries ++ more)
    | _, _ => none

/-- `find_special_token_boundaries`: sorted, without repetition. -/
def findSpecialTokenBoundaries (fuel : Nat) (text : Text) (specialTokens : List Text) :
    Option (List Nat) :=
  if specialTokens.isEmpty then some []
  else (allBoundaries text fuel specialTokens).map fun boundaries =>
    (boundaries.insertionSort (· ≤ ·)).dedup

/-! ### The L0 cache -/

structure CachedEntry where
  encoding : List TokenId
  lastAccessed : Nat

structure L0Cache where
  mapPlain : KeyedMap Text CachedEntry := ∅
  mapSpecial : KeyedMap Text CachedEntry := ∅
  maxEntries : Nat
  accessCounter : Nat := 0

namespace L0Cache

def evictionSampleSize : Nat := 8

def u64Max : Nat := 2 ^ 64 - 1

variable (self : L0Cache)

def mapFor (addSpecialTokens : Bool) : KeyedMap Text CachedEntry :=
  if addSpecialTokens then self.mapSpecial else self.mapPlain

def setMap (addSpecialTokens : Bool) (map : KeyedMap Text CachedEntry) : L0Cache :=
  if addSpecialTokens then { self with mapSpecial := map } else { self with mapPlain := map }

def len : Nat := self.mapPlain.size + self.mapSpecial.size

def get (key : Text) (addSpecialTokens : Bool) : L0Cache × Option (List TokenId) :=
  match (self.mapFor addSpecialTokens).get? key with
  | none => (self, none)
  | some entry =>
    let touched := (self.mapFor addSpecialTokens).insert key
      { entry with lastAccessed := self.accessCounter }
    ({ self.setMap addSpecialTokens touched with accessCounter := self.accessCounter + 1 }, some entry.encoding)

/-- The oldest of the sampled entries. -/
def oldestKey (sample : List (Text × CachedEntry)) : Option Text :=
  (sample.foldl (fun (oldest : Nat × Option Text) entry =>
    if entry.2.lastAccessed < oldest.1 then (entry.2.lastAccessed, some entry.1) else oldest)
    (u64Max, none)).2

def maybeEvict : L0Cache :=
  if self.maxEntries ≤ self.len then
    let victim := !decide (self.mapSpecial.size ≤ self.mapPlain.size)
    match oldestKey ((self.mapFor victim).toList.take evictionSampleSize) with
    | none => self
    | some key => self.setMap victim ((self.mapFor victim).erase key)
  else self

def insert (key : Text) (addSpecialTokens : Bool) (value : List TokenId) : L0Cache :=
  let evicted := self.maybeEvict
  let map := (evicted.mapFor addSpecialTokens).insert key ⟨value, evicted.accessCounter⟩
  { evicted.setMap addSpecialTokens map with accessCounter := evicted.accessCounter + 1 }

end L0Cache

/-! ### The L1 cache -/

/-- The hash of prefixes (`blake3`), with the byte that chooses the shard. -/
structure Hasher (η : Type) where
  digest : Text → η
  firstByte : η → Nat

structure CachedPrefix where
  tokens : List TokenId
  lastAccessed : Nat
  sizeBytes : Nat

/-- The entries lie in 16 shards, by the hash. -/
structure L1Cache (η : Type) where
  shards : Fin 16 → KeyedMap η CachedPrefix := fun _ => ∅
  maxMemory : Nat
  currentMemory : Nat := 0
  accessCounter : Nat := 0

namespace L1Cache
variable {η : Type} [DecidableEq η] (hasher : Hasher η)

def shardIdx (hash : η) : Fin 16 := Fin.ofNat 16 (hasher.firstByte hash)

variable (self : L1Cache η)

def len : Nat := ((List.finRange 16).map fun shard => (self.shards shard).size).sum

/-- The search from the longest boundary down. -/
def searchPrefixes (self : L1Cache η) (input : Text) :
    List Nat → L1Cache η × Option (List TokenId × Nat)
  | [] => (self, none)
  | boundary :: shorter =>
    let hash := hasher.digest (input.take boundary)
    match (self.shards (shardIdx hasher hash)).get? hash with
    | some entry =>
      let touched := (self.shards (shardIdx hasher hash)).insert hash
        { entry with lastAccessed := self.accessCounter }
      ({ self with
          shards := update self.shards (shardIdx hasher hash) touched
          accessCounter := self.accessCounter + 1 }, some (entry.tokens, boundary))
    | none => searchPrefixes self input shorter

def longestPrefixMatch (fuel : Nat) (input : Text) (specialTokens : List Text) :
    Option (L1Cache η × Option (List TokenId × Nat)) :=
  (findSpecialTokenBoundaries fuel input specialTokens).map fun boundaries =>
    self.searchPrefixes hasher input boundaries.reverse

def sampleSize : Nat := 32

/-- The first entry of each sampled shard: shard, hash, timestamp and size. -/
def samples (iteration : Nat) : List (Fin 16 × η × Nat × Nat) :=
  (List.range sampleSize).filterMap fun i =>
    let shard := Fin.ofNat 16 (iteration * sampleSize + i)
    (self.shards shard).toList.head?.map fun entry =>
      (shard, entry.1, entry.2.lastAccessed, entry.2.sizeBytes)

/-- `min_by_key` on the timestamps: the first of the oldest. -/
def oldestSample : List (Fin 16 × η × Nat × Nat) → Option (Fin 16 × η × Nat × Nat)
  | [] => none
  | first :: rest => some (rest.foldl (fun oldest next =>
      if next.2.2.1 < oldest.2.2.1 then next else oldest) first)

/-- The loop of `evict_lru`. Every round removes an entry, so there are no more rounds than
entries. -/
def evictLoop (spaceNeeded : Nat) : Nat → Nat → Nat → L1Cache η → L1Cache η
  | 0, _, _, self => self
  | rounds + 1, freed, iteration, self =>
    if freed < spaceNeeded then
      match oldestSample (self.samples iteration) with
      | none => self
      | some (shard, hash, _, _) =>
        match (self.shards shard).get? hash with
        | none => evictLoop spaceNeeded rounds freed (iteration + 1) self
        | some removed => evictLoop spaceNeeded rounds (freed + removed.sizeBytes) (iteration + 1)
            { self with
              shards := update self.shards shard ((self.shards shard).erase hash)
              currentMemory := self.currentMemory - removed.sizeBytes }
    else self

def evictLru (spaceNeeded : Nat) : L1Cache η :=
  self.evictLoop spaceNeeded (self.len + 1) 0 0

/-- Inserts an entry and accounts for a replaced one. -/
def insertEntry (timestamp : Nat) (entry : η × List TokenId × Nat) : L1Cache η :=
  let shard := shardIdx hasher entry.1
  let oldSize := (((self.shards shard).get? entry.1).map (·.sizeBytes)).getD 0
  { self with
    shards := update self.shards shard ((self.shards shard).insert entry.1 ⟨entry.2.1, timestamp, entry.2.2⟩)
    currentMemory := self.currentMemory + entry.2.2 - oldSize }

def tokenIdSize : Nat := 4

/-- The entries for the boundaries: each segment is tokenized after the one before. Only the very
first one is given special tokens. -/
def prefixEntries (inner : Tokenizer) (input : Text) (addSpecialTokens : Bool) :
    Bool → List TokenId → Nat → List Nat → Except String (List (η × List TokenId × Nat))
  | _, _, _, [] => .ok []
  | first, runningTokens, lastPos, boundary :: rest =>
    match inner.encode ((input.take boundary).drop lastPos) (first && addSpecialTokens) with
    | .error error => .error error
    | .ok segment =>
      let tokens := runningTokens ++ segment
      (prefixEntries inner input addSpecialTokens false tokens boundary rest).map fun more =>
        (hasher.digest (input.take boundary), tokens,
          byteLen (input.take boundary) + tokens.length * tokenIdSize) :: more

/-- `insert_at_boundaries`; its error is ignored by the caller. -/
def insertAtBoundaries (fuel : Nat) (inner : Tokenizer) (input : Text)
    (addSpecialTokens : Bool) : Option (L1Cache η) :=
  (findSpecialTokenBoundaries fuel input inner.specialTokenStrings).map fun boundaries =>
    match prefixEntries hasher inner input addSpecialTokens true [] 0 boundaries with
    | .error _ => self
    | .ok entries =>
      let totalSizeNeeded := (entries.map fun entry => entry.2.2).sum
      let evicted := if self.maxMemory < self.currentMemory + totalSizeNeeded
        then self.evictLru totalSizeNeeded else self
      entries.foldl (fun cache entry => cache.insertEntry hasher evicted.accessCounter entry) evicted

end L1Cache

/-! ### The cached tokenizer -/

structure CacheConfig where
  enableL0 : Bool
  l0MaxEntries : Nat
  enableL1 : Bool
  l1MaxMemory : Nat

structure CachedTokenizer (η : Type) where
  l0 : Option L0Cache
  l1 : Option (L1Cache η)

namespace CachedTokenizer
variable {η : Type} [DecidableEq η] (hasher : Hasher η) (inner : Tokenizer)

def new (config : CacheConfig) : CachedTokenizer η where
  l0 := if config.enableL0 then some { maxEntries := config.l0MaxEntries } else none
  l1 := if config.enableL1 then some { maxMemory := config.l1MaxMemory } else none

variable (self : CachedTokenizer η)

/-- Looks the whole input up in the L0 cache. -/
def lookup (input : Text) (addSpecialTokens : Bool) :
    CachedTokenizer η × Option (List TokenId) :=
  match self.l0 with
  | none => (self, none)
  | some l0 =>
    let (touched, cached) := l0.get input addSpecialTokens
    ({ self with l0 := some touched }, cached)

def storeL0 (input : Text) (addSpecialTokens : Bool)
    (encoding : List TokenId) : CachedTokenizer η :=
  { self with l0 := self.l0.map fun l0 => l0.insert input addSpecialTokens encoding }

/-- The path of an L1 hit: only the suffix is tokenized. -/
def encodeSuffix (input : Text) (addSpecialTokens : Bool)
    (prefixTokens : List TokenId) (prefixLen : Nat) :
    CachedTokenizer η × Except String (List TokenId) :=
  match inner.encode (input.drop prefixLen) addSpecialTokens with
  | .error error => (self, .error error)
  | .ok suffix =>
    (self.storeL0 input addSpecialTokens (prefixTokens ++ suffix), .ok (prefixTokens ++ suffix))

/-- The path of a miss: full tokenization, stored in both caches. -/
def encodeFull (fuel : Nat) (input : Text) (addSpecialTokens : Bool) :
    Option (CachedTokenizer η × Except String (List TokenId)) :=
  match inner.encode input addSpecialTokens with
  | .error error => some (self, .error error)
  | .ok encoding =>
    let stored := self.storeL0 input addSpecialTokens encoding
    match stored.l1 with
    | none => some (stored, .ok encoding)
    | some l1 => (l1.insertAtBoundaries hasher fuel inner input addSpecialTokens).map fun l1 =>
        ({ stored with l1 := some l1 }, .ok encoding)

/-- `encode`; `none` if the search for boundaries has not ended within the fuel. -/
def encode (fuel : Nat) (input : Text) (addSpecialTokens : Bool) :
    Option (CachedTokenizer η × Except String (List TokenId)) :=
  match self.lookup input addSpecialTokens with
  | (self, some cached) => some (self, .ok cached)
  | (self, none) =>
    match self.l1 with
    | none => self.encodeFull hasher inner fuel input addSpecialTokens
    | some l1 =>
      match l1.longestPrefixMatch hasher fuel input inner.specialTokenStrings with
      | none => none
      | some (touched, some (prefixTokens, prefixLen)) =>
        if input.drop prefixLen ≠ [] then
          some (encodeSuffix inner { self with l1 := some touched } input addSpecialTokens prefixTokens prefixLen)
        else encodeFull hasher inner { self with l1 := some touched } fuel input addSpecialTokens
      | some (touched, none) =>
        encodeFull hasher inner { self with l1 := some touched } fuel input addSpecialTokens

/-- A sequence of calls, with the result of each. -/
def run (fuel : Nat) : CachedTokenizer η → List (Text × Bool) →
    Option (CachedTokenizer η × List (Except String (List TokenId)))
  | self, [] => some (self, [])
  | self, (input, addSpecialTokens) :: rest =>
    match self.encode hasher inner fuel input addSpecialTokens with
    | none => none
    | some (next, result) => (run fuel next rest).map fun (last, results) => (last, result :: results)

end CachedTokenizer
end ModelGateway.TokenizerCache
