import ModelGateway.TokenizerCache

/-! When the cached tokenizer returns what the wrapped one does. An L0 entry is the encoding of its
key; an L1 entry is meant to be the encoding of its prefix without special tokens. -/
namespace ModelGateway.TokenizerCache
open Occurrences List KeyedMap Option Nat

def EndsInSpecial (inner : Tokenizer) (text : Text) : Prop :=
  ∃ token ∈ inner.specialTokenStrings, token <:+ text

/-- The law the cache relies on: an encoding can be split after a special token, and special tokens
are a fixed list put in front. -/
structure SplittingLaw (inner : Tokenizer) (front : List TokenId) : Prop where
  split : ∀ pre post, EndsInSpecial inner pre → inner.encode (pre ++ post) false =
      (inner.encode pre false).bind fun first =>
        (inner.encode post false).map fun second => first ++ second
  special : ∀ text, inner.encode text true = (inner.encode text false).map fun tokens => front ++ tokens

/-- No special token ends before the end of the text. -/
def NoBoundary (inner : Tokenizer) (text : Text) : Prop :=
  ∀ token ∈ inner.specialTokenStrings, ∀ pre post, text = pre ++ token ++ post → post = []

/-! ### Boundaries -/

variable {text token : Text} {start fuel : Nat} {boundaries : List Nat} {tokens : List Text} {inner : Tokenizer}

theorem take_boundary {pos : Nat} (within : start ≤ text.length) (found : find token (text.drop start) = some pos) :
    start + pos + token.length ≤ text.length ∧ token <:+ text.take (start + pos + token.length) := by
  obtain ⟨pre, post, rest, rfl⟩ := find_eq_some found
  have whole : text = (text.take start ++ pre ++ token) ++ post := by
    rw [append_assoc, append_assoc, ← append_assoc pre, ← rest, take_append_drop]
  have size : (text.take start ++ pre ++ token).length = start + pre.length + token.length := by
    rw [length_append, length_append, length_take, min_eq_left within]
  constructor
  · rw [whole, length_append, size]
    exact le_add_right _ _
  · rw [← size]
    nth_rewrite 2 [whole]
    rw [take_left]
    exact suffix_append _ _

theorem tokenBoundaries_spec (nonempty : token ≠ []) (within : start ≤ text.length)
    (enough : text.length < start + fuel) :
    ∃ boundaries, tokenBoundaries text token fuel start = some boundaries ∧
      ∀ boundary ∈ boundaries, boundary < text.length ∧ token <:+ text.take boundary := by
  induction fuel generalizing start with
  | zero => exact absurd enough (by omega)
  | succ fuel ih =>
    rw [tokenBoundaries]
    split
    · exact ⟨[], rfl, nofun⟩
    · rename_i pos occurs
      have positive := length_pos_iff.mpr nonempty
      obtain ⟨inside, ends⟩ := take_boundary within occurs
      obtain ⟨more, later, others⟩ := ih inside (by omega)
      simp only [later, map_some]
      refine ⟨_, rfl, ?_⟩
      split
      · exact forall_mem_cons.mpr ⟨⟨‹_›, ends⟩, others⟩
      · exact others

theorem allBoundaries_spec (nonempty : ∀ token ∈ tokens, token ≠ []) (enough : text.length < fuel) :
    ∃ boundaries, allBoundaries text fuel tokens = some boundaries ∧ ∀ boundary ∈ boundaries,
      boundary < text.length ∧ ∃ token ∈ tokens, token <:+ text.take boundary := by
  induction tokens with
  | nil => exact ⟨[], rfl, nofun⟩
  | cons token rest ih =>
    obtain ⟨more, others, later⟩ := ih fun other mem => nonempty other (mem_cons_of_mem _ mem)
    obtain ⟨boundaries, one, here⟩ := tokenBoundaries_spec (nonempty token mem_cons_self)
      (zero_le text.length) (by rwa [zero_add])
    rw [allBoundaries, one, others]
    refine ⟨_, rfl, forall_mem_append.mpr ⟨fun boundary mem => ?_, fun boundary mem => ?_⟩⟩
    · obtain ⟨inside, ends⟩ := here boundary mem
      exact ⟨inside, token, mem_cons_self, ends⟩
    · obtain ⟨inside, other, listed, ends⟩ := later boundary mem
      exact ⟨inside, other, mem_cons_of_mem _ listed, ends⟩

/-- Boundaries are ascending, leave a suffix, and are behind special tokens. -/
structure Boundaries (inner : Tokenizer) (text : Text) (boundaries : List Nat) : Prop where
  ascending : boundaries.Pairwise (· ≤ ·)
  inside : ∀ boundary ∈ boundaries, boundary < text.length
  ends : ∀ boundary ∈ boundaries, EndsInSpecial inner (text.take boundary)

theorem find_boundaries (nonempty : ∀ token ∈ inner.specialTokenStrings, token ≠ []) (enough : text.length < fuel) :
    ∃ boundaries, findSpecialTokenBoundaries fuel text inner.specialTokenStrings = some boundaries ∧
      Boundaries inner text boundaries := by
  rw [findSpecialTokenBoundaries]
  split
  · exact ⟨[], rfl, Pairwise.nil, nofun, nofun⟩
  · obtain ⟨all, collected, sound⟩ := allBoundaries_spec nonempty enough
    have mem {boundary : Nat} (listed : boundary ∈ (all.insertionSort (· ≤ ·)).dedup) : boundary ∈ all := by
      rwa [mem_dedup, mem_insertionSort] at listed
    rw [collected, map_some]
    exact ⟨_, rfl, (pairwise_insertionSort _ _).sublist (dedup_sublist _),
      fun boundary listed => (sound boundary (mem listed)).1,
      fun boundary listed => (sound boundary (mem listed)).2⟩

theorem Boundaries.eq_nil (found : Boundaries inner text boundaries) (none : NoBoundary inner text) :
    boundaries = [] := by
  rw [eq_nil_iff_forall_not_mem]
  intro boundary mem
  obtain ⟨token, listed, pre, ends⟩ := found.ends boundary mem
  have rest := none token listed pre (text.drop boundary) (by rw [ends, take_append_drop])
  have := found.inside boundary mem
  rw [drop_eq_nil_iff] at rest
  omega

theorem Boundaries.among {prefixes : Set Text} (found : Boundaries inner text boundaries)
    (all : ∀ pre, EndsInSpecial inner pre → pre <+: text → pre ∈ prefixes) :
    ∀ boundary ∈ boundaries, text.take boundary ∈ prefixes :=
  fun boundary mem => all _ (found.ends boundary mem) ( take_prefix _ _)

/-! ### The L0 cache -/

/-- Every entry is the encoding of its key. -/
def L0Cache.Sound (inner : Tokenizer) (self : L0Cache) : Prop :=
  ∀ flag key entry, (self.mapFor flag).get? key = some entry → inner.encode key flag = .ok entry.encoding

namespace L0Cache
variable {inner : Tokenizer}

@[simp] theorem mapFor_setMap (self : L0Cache) (flag probe : Bool) (map : KeyedMap Text CachedEntry) :
    (self.setMap flag map).mapFor probe = if probe = flag then map else self.mapFor probe := by
  cases flag <;> cases probe <;> rfl

variable {self : L0Cache} {flag : Bool}

variable (sound : self.Sound inner)
include sound

theorem Sound.setMap {map : KeyedMap Text CachedEntry}
    (entries : ∀ key entry, map.get? key = some entry → inner.encode key flag = .ok entry.encoding) :
    (self.setMap flag map).Sound inner := by
  intro probe key entry held
  rw [mapFor_setMap] at held
  split at held
  · rename_i same
    rw [same]
    exact entries key entry held
  · exact sound probe key entry held

theorem Sound.maybeEvict : self.maybeEvict.Sound inner := by
  rw [L0Cache.maybeEvict]
  split
  · dsimp only
    split
    · exact sound
    · exact sound.setMap (forall_erase (sound _) _)
  · exact sound

theorem Sound.insert {key : Text} {value : List TokenId} (right : inner.encode key flag = .ok value) :
    (self.insert key flag value).Sound inner := by
  have evicted := sound.maybeEvict
  intro probe other entry held
  exact evicted.setMap (forall_insert (evicted flag) right) probe other entry held

theorem Sound.get (key : Text) (flag : Bool) : (self.get key flag).1.Sound inner ∧
      ∀ cached, (self.get key flag).2 = some cached → inner.encode key flag = .ok cached := by
  rw [L0Cache.get]
  split
  · exact ⟨sound, nofun⟩
  · rename_i entry held
    have right := sound flag key entry held
    refine ⟨fun probe other entry heldToo => ?_, fun cached same => some.inj same ▸ right⟩
    refine sound.setMap (forall_insert (sound flag) ?_) probe other entry heldToo
    exact right

end L0Cache

/-! ### The L1 cache -/

/-- The tokens are those of one of the prefixes with this hash, without special tokens. -/
def PrefixTokens {η : Type} (hasher : Hasher η) (inner : Tokenizer) (prefixes : Set Text) (hash : η)
    (tokens : List TokenId) : Prop :=
  ∃ text ∈ prefixes, hasher.digest text = hash ∧ inner.encode text false = .ok tokens

/-- Every entry holds the tokens of its prefix. -/
def L1Cache.Sound {η : Type} [DecidableEq η] (hasher : Hasher η) (inner : Tokenizer)
    (prefixes : Set Text) (self : L1Cache η) : Prop :=
  ∀ shard hash entry, (self.shards shard).get? hash = some entry → PrefixTokens hasher inner prefixes hash entry.tokens

namespace L1Cache
variable {η : Type} {hasher : Hasher η} {inner : Tokenizer} {prefixes : Set Text}

variable {front : List TokenId} {input : Text} {flag : Bool} {entries : List (η × List TokenId × Nat)}
  {self : L1Cache η}

/-- The running tokens at each boundary are those of its prefix, if special tokens add nothing. -/
theorem prefixEntries_sound (law : SplittingLaw inner front) {first : Bool}
    (plain : ∀ text, inner.encode text flag = inner.encode text false) {running : List TokenId}
    {lastPos : Nat} {boundaries : List Nat} (ascending : (lastPos :: boundaries).Pairwise (· ≤ ·))
    (ends : ∀ boundary ∈ boundaries, EndsInSpecial inner (input.take boundary))
    (among : ∀ boundary ∈ boundaries, input.take boundary ∈ prefixes)
    (reached : lastPos = 0 ∧ running = [] ∨
      EndsInSpecial inner (input.take lastPos) ∧ inner.encode (input.take lastPos) false = .ok running)
    (collected : prefixEntries hasher inner input flag first running lastPos boundaries = .ok entries) :
    ∀ entry ∈ entries, PrefixTokens hasher inner prefixes entry.1 entry.2.1 := by
  induction boundaries generalizing first running lastPos entries with
  | nil =>
    cases collected
    nofun
  | cons boundary rest ih =>
    have segmentFlag (text : Text) : inner.encode text (first && flag) = inner.encode text false := by
      cases first with
      | false => rfl
      | true => exact plain text
    rw [prefixEntries, segmentFlag] at collected
    cases segment : inner.encode ((input.take boundary).drop lastPos) false with
    | error error =>
      rw [segment] at collected
      cases collected
    | ok tokens =>
      rw [segment] at collected
      have here := ends boundary mem_cons_self
      have encoded : inner.encode (input.take boundary) false = .ok (running ++ tokens) := by
        rcases reached with ⟨rfl, rfl⟩ | ⟨pre, encoded⟩
        · rwa [drop_zero] at segment
        · have order : lastPos ≤ boundary := (pairwise_cons.mp ascending).1 boundary mem_cons_self
          have parts : input.take boundary = input.take lastPos ++ (input.take boundary).drop lastPos := by
            rw [← min_eq_left order, ← take_take, min_eq_left order, take_append_drop]
          rw [parts, law.split _ _ pre, encoded, segment]
          rfl
      cases later : prefixEntries hasher inner input flag false (running ++ tokens) boundary rest with
      | error error =>
        simp only [later] at collected
        cases collected
      | ok more =>
        simp only [later] at collected
        cases collected
        have others := ih (pairwise_cons.mp ascending).2
          (fun other mem => ends other (mem_cons_of_mem _ mem))
          (fun other mem => among other (mem_cons_of_mem _ mem)) (.inr ⟨here, encoded⟩) later
        exact forall_mem_cons.mpr ⟨⟨_, among boundary mem_cons_self, rfl, encoded⟩, others⟩

variable [DecidableEq η]

variable (sound : self.Sound hasher inner prefixes)
include sound

theorem Sound.setShard {shard : Fin 16} {map : KeyedMap η CachedPrefix} (memory counter : Nat)
    (entries : ∀ hash entry, map.get? hash = some entry → PrefixTokens hasher inner prefixes hash entry.tokens) :
    L1Cache.Sound hasher inner prefixes { self with
      shards := Function.update self.shards shard map
      currentMemory := memory
      accessCounter := counter } :=
  (Function.forall_update_iff _ fun _ (map : KeyedMap η CachedPrefix) => ∀ hash entry,
    map.get? hash = some entry → PrefixTokens hasher inner prefixes hash entry.tokens).mpr
    ⟨entries, fun probe _ => sound probe⟩

theorem Sound.evictLoop (spaceNeeded rounds freed iteration : Nat) :
    (self.evictLoop spaceNeeded rounds freed iteration).Sound hasher inner prefixes := by
  induction rounds generalizing self freed iteration with
  | zero => exact sound
  | succ rounds ih =>
    rw [L1Cache.evictLoop]
    split
    · split
      · exact sound
      · split
        · exact ih sound _ _
        · exact ih (sound.setShard _ _ (forall_erase (sound _) _)) _ _
    · exact sound

theorem Sound.insertEntry (timestamp : Nat) {entry : η × List TokenId × Nat}
    (right : PrefixTokens hasher inner prefixes entry.1 entry.2.1) :
    (self.insertEntry hasher timestamp entry).Sound hasher inner prefixes :=
  sound.setShard _ _ (forall_insert (sound _) right)

theorem Sound.searchPrefixes (injective : prefixes.InjOn hasher.digest) {boundaries : List Nat}
    (among : ∀ boundary ∈ boundaries, input.take boundary ∈ prefixes) :
    (self.searchPrefixes hasher input boundaries).1.Sound hasher inner prefixes ∧
      ∀ tokens boundary, (self.searchPrefixes hasher input boundaries).2 = some (tokens, boundary) →
        boundary ∈ boundaries ∧ inner.encode (input.take boundary) false = .ok tokens := by
  induction boundaries with
  | nil => exact ⟨sound, nofun⟩
  | cons boundary shorter ih =>
    simp only [L1Cache.searchPrefixes]
    split
    · rename_i entry held
      have right := sound _ _ entry held
      constructor
      · exact sound.setShard _ _ (forall_insert (sound _) right)
      · rintro tokens position ⟨⟩
        obtain ⟨text, listed, digest, encoded⟩ := right
        exact ⟨mem_cons_self, injective listed (among boundary mem_cons_self) digest ▸ encoded⟩
    · have ih := ih fun other mem => among other (mem_cons_of_mem _ mem)
      refine ⟨ih.1, fun tokens position found => ?_⟩
      obtain ⟨mem, encoded⟩ := ih.2 tokens position found
      exact ⟨mem_cons_of_mem _ mem, encoded⟩

theorem Sound.insertAtBoundaries {fuel : Nat} (law : SplittingLaw inner front)
    (nonempty : ∀ token ∈ inner.specialTokenStrings, token ≠ [])
    (plain : (∀ text, inner.encode text flag = inner.encode text false) ∨ NoBoundary inner input)
    (among : ∀ text, EndsInSpecial inner text → text <+: input → text ∈ prefixes)
    (enough : input.length < fuel) : ∃ next,
      self.insertAtBoundaries hasher fuel inner input flag = some next ∧ next.Sound hasher inner prefixes := by
  obtain ⟨boundaries, found, places⟩ := find_boundaries nonempty enough
  refine ⟨_, map_eq_some_iff.mpr ⟨boundaries, found, rfl⟩, ?_⟩
  split
  · exact sound
  · rename_i entries collected
    have right : ∀ entry ∈ entries, PrefixTokens hasher inner prefixes entry.1 entry.2.1 := by
      rcases plain with plain | none
      · refine prefixEntries_sound law plain ?_ places.ends (places.among among) (.inl ⟨rfl, rfl⟩) collected
        exact pairwise_cons.mpr ⟨fun _ _ => zero_le _, places.ascending⟩
      · rw [places.eq_nil none] at collected
        cases collected
        nofun
    have evicted (spaceNeeded : Nat) : L1Cache.Sound hasher inner prefixes
        (if self.maxMemory < self.currentMemory + spaceNeeded then self.evictLru spaceNeeded else self) := by
      split
      · exact sound.evictLoop _ _ _ _
      · exact sound
    refine foldlRecOn (motive := L1Cache.Sound hasher inner prefixes) _ _ (evicted _) ?_
    exact fun cache sound entry mem => sound.insertEntry _ (right entry mem)

end L1Cache

/-! ### Calls -/

namespace CachedTokenizer
variable {η : Type} [DecidableEq η] {hasher : Hasher η} {inner : Tokenizer} {prefixes : Set Text}

structure Sound (hasher : Hasher η) (inner : Tokenizer) (prefixes : Set Text)
    (cache : CachedTokenizer η) : Prop where
  l0 : ∀ l0, cache.l0 = some l0 → l0.Sound inner
  l1 : ∀ l1, cache.l1 = some l1 → l1.Sound hasher inner prefixes

/-- A call the caches answer rightly: without an L1 cache any call; otherwise no special token is
empty, and special tokens are asked for only if they add nothing or there is no boundary. -/
def Safe (inner : Tokenizer) (front : List TokenId) (config : CacheConfig) (call : Text × Bool) : Prop :=
  config.enableL1 = false ∨ (∀ token ∈ inner.specialTokenStrings, token ≠ []) ∧
      (front = [] ∨ call.2 = false ∨ NoBoundary inner call.1)

theorem sound_new (config : CacheConfig) : (new config : CachedTokenizer η).Sound hasher inner prefixes where
  l0 := by
    intro l0 on
    simp only [new] at on
    split at on
    · cases on
      intro flag key entry held
      cases flag <;> cases held
    · cases on
  l1 := by
    intro l1 on
    simp only [new] at on
    split at on
    · cases on
      intro shard hash entry held
      cases held
    · cases on

variable {self : CachedTokenizer η} {input : Text} {flag : Bool} {front : List TokenId} {fuel : Nat}

variable (sound : self.Sound hasher inner prefixes)
include sound

theorem Sound.storeL0 {encoding : List TokenId} (right : inner.encode input flag = .ok encoding) :
    (self.storeL0 input flag encoding).Sound hasher inner prefixes where
  l0 := by
    intro stored on
    obtain ⟨l0, held, rfl⟩ := map_eq_some_iff.mp on
    exact (sound.l0 l0 held).insert right
  l1 := sound.l1

theorem Sound.setL1 {l1 : L1Cache η} (right : l1.Sound hasher inner prefixes) :
    Sound hasher inner prefixes { self with l1 := some l1 } where
  l0 := sound.l0
  l1 := by
    rintro other ⟨⟩
    exact right

theorem Sound.lookup (input : Text) (flag : Bool) :
    (self.lookup input flag).1.Sound hasher inner prefixes ∧ (self.lookup input flag).1.l1 = self.l1 ∧
      ∀ cached, (self.lookup input flag).2 = some cached → inner.encode input flag = .ok cached := by
  rw [CachedTokenizer.lookup]
  cases held : self.l0 with
  | none => exact ⟨sound, rfl, nofun⟩
  | some l0 =>
    obtain ⟨touched, right⟩ := (sound.l0 l0 held).get input flag
    refine ⟨⟨?_, sound.l1⟩, rfl, right⟩
    rintro other ⟨⟩
    exact touched

variable (law : SplittingLaw inner front)
include law

omit sound in
theorem plain_of_front (nothing : front = [] ∨ flag = false) (text : Text) :
    inner.encode text flag = inner.encode text false := by
  rcases nothing with rfl | rfl
  · cases flag with
    | false => rfl
    | true =>
      rw [law.special]
      cases inner.encode text false <;> rfl
  · rfl

/-- The boundaries are not looked at, or there are none, or they may be used. -/
def Answerable (inner : Tokenizer) (l1 : Option (L1Cache η)) (input : Text) (flag : Bool) : Prop :=
  l1 = none ∨ ((∀ token ∈ inner.specialTokenStrings, token ≠ []) ∧
    ((∀ text, inner.encode text flag = inner.encode text false) ∨ NoBoundary inner input))

theorem Sound.encodeFull (safe : Answerable inner self.l1 input flag)
    (among : ∀ text, EndsInSpecial inner text → text <+: input → text ∈ prefixes) (enough : input.length < fuel) :
    ∃ next, self.encodeFull hasher inner fuel input flag = some (next, inner.encode input flag) ∧
      next.Sound hasher inner prefixes ∧ next.l1.isSome = self.l1.isSome := by
  rw [CachedTokenizer.encodeFull]
  cases encoded : inner.encode input flag with
  | error error => exact ⟨self, rfl, sound, rfl⟩
  | ok encoding =>
    have stored := sound.storeL0 encoded
    cases held : self.l1 with
    | none =>
      refine ⟨self.storeL0 input flag encoding, ?_, stored, congrArg isSome held⟩
      simp only [CachedTokenizer.storeL0, held]
    | some l1 =>
      obtain ⟨nonempty, plain⟩ := safe.resolve_left (by rw [held]; nofun)
      obtain ⟨post, inserted, kept⟩ := (sound.l1 l1 held).insertAtBoundaries law nonempty plain among enough
      refine ⟨{ self.storeL0 input flag encoding with l1 := some post }, ?_, stored.setL1 kept, rfl⟩
      simp only [CachedTokenizer.storeL0, held, inserted, map_some]

theorem Sound.encodeSuffix {tokens : List TokenId} {boundary : Nat}
    (plain : ∀ text, inner.encode text flag = inner.encode text false)
    (ends : EndsInSpecial inner (input.take boundary))
    (encoded : inner.encode (input.take boundary) false = .ok tokens) :
    ∃ next, self.encodeSuffix inner input flag tokens boundary = (next, inner.encode input flag) ∧
      next.Sound hasher inner prefixes ∧ next.l1 = self.l1 := by
  have whole : inner.encode input flag =
      (inner.encode (input.drop boundary) flag).map fun suffix => tokens ++ suffix := by
    rw [plain, plain]
    nth_rewrite 1 [← take_append_drop boundary input]
    rw [law.split _ _ ends, encoded]
    rfl
  rw [CachedTokenizer.encodeSuffix]
  cases rest : inner.encode (input.drop boundary) flag with
  | error error =>
    rw [rest] at whole
    exact ⟨self, by rw [whole]; rfl, sound, rfl⟩
  | ok suffix =>
    rw [rest] at whole
    exact ⟨_, by rw [whole]; rfl, sound.storeL0 whole, rfl⟩

/-- A safe call returns what the wrapped tokenizer returns. -/
theorem Sound.encode (injective : prefixes.InjOn hasher.digest) (safe : Answerable inner self.l1 input flag)
    (among : ∀ text, EndsInSpecial inner text → text <+: input → text ∈ prefixes) (enough : input.length < fuel) :
    ∃ next, self.encode hasher inner fuel input flag = some (next, inner.encode input flag) ∧
      next.Sound hasher inner prefixes ∧ next.l1.isSome = self.l1.isSome := by
  obtain ⟨touched, same, right⟩ := sound.lookup input flag
  rw [CachedTokenizer.encode]
  cases looked : self.lookup input flag with
  | mk looking cached =>
    rw [looked] at touched same right
    cases cached with
    | some cached =>
      exact ⟨looking, by rw [right cached rfl], touched, congrArg isSome same⟩
    | none =>
      have safe := same ▸ safe
      rw [← same]
      dsimp only
      cases held : looking.l1 with
      | none =>
        obtain ⟨next, done, post, on⟩ := touched.encodeFull law safe among enough
        exact ⟨next, done, post, on.trans (congrArg isSome held)⟩
      | some l1 =>
        obtain ⟨nonempty, plain⟩ := safe.resolve_left (by rw [held]; nofun)
        obtain ⟨boundaries, found, places⟩ := find_boundaries nonempty enough
        obtain ⟨searched, hit⟩ := (touched.l1 l1 held).searchPrefixes injective fun boundary mem =>
          places.among among boundary (mem_reverse.mp mem)
        have sound := touched.setL1 searched
        dsimp only
        rw [L1Cache.longestPrefixMatch, found, map_some]
        cases result : l1.searchPrefixes hasher input boundaries.reverse with
        | mk post best =>
          rw [result] at sound hit
          cases best with
          | none =>
            obtain ⟨next, done, sound, on⟩ := sound.encodeFull law (.inr ⟨nonempty, plain⟩) among enough
            exact ⟨next, done, sound, on⟩
          | some entry =>
            obtain ⟨tokens, boundary⟩ := entry
            obtain ⟨mem, encoded⟩ := hit tokens boundary rfl
            rw [mem_reverse] at mem
            have suffix : input.drop boundary ≠ [] := by
              rw [Ne, drop_eq_nil_iff]
              have := places.inside boundary mem
              omega
            have plain := plain.resolve_right fun none => by
              rw [places.eq_nil none] at mem
              cases mem
            obtain ⟨next, done, sound, on⟩ := sound.encodeSuffix law plain (places.ends boundary mem) encoded
            refine ⟨next, ?_, sound, by rw [on]; rfl⟩
            dsimp only
            rw [if_pos suffix, done]

theorem Sound.run {config : CacheConfig} {calls : List (Text × Bool)}
    (injective : prefixes.InjOn hasher.digest) (on : self.l1.isSome = config.enableL1)
    (safe : ∀ call ∈ calls, Safe inner front config call)
    (among : ∀ call ∈ calls, ∀ text, EndsInSpecial inner text → text <+: call.1 → text ∈ prefixes)
    (enough : ∀ call ∈ calls, call.1.length < fuel) :
    ∃ last, self.run hasher inner fuel calls = some (last, calls.map fun call => inner.encode call.1 call.2) := by
  induction calls generalizing self with
  | nil => exact ⟨self, rfl⟩
  | cons call rest ih =>
    obtain ⟨input, flag⟩ := call
    obtain ⟨here, others⟩ := forall_mem_cons.mp safe
    obtain ⟨amongHere, amongOthers⟩ := forall_mem_cons.mp among
    obtain ⟨fits, fitOthers⟩ := forall_mem_cons.mp enough
    have answerable : Answerable inner self.l1 input flag := by
      rcases here with off | ⟨nonempty, nothing | plain | none⟩
      · rw [off] at on
        exact .inl (isSome_eq_false_iff.mp on |> isNone_iff_eq_none.mp)
      · exact .inr ⟨nonempty, .inl (plain_of_front law (.inl nothing))⟩
      · exact .inr ⟨nonempty, .inl (plain_of_front law (.inr plain))⟩
      · exact .inr ⟨nonempty, .inr none⟩
    obtain ⟨next, step, post, same⟩ := sound.encode law injective answerable amongHere fits
    obtain ⟨last, steps⟩ := ih post (same.trans on) others amongOthers fitOthers
    refine ⟨last, ?_⟩
    rw [CachedTokenizer.run, step]
    simp only [steps, map_some, map_cons]

omit law

omit sound

/-- A tokenizer with one token for each character, the special token `|` and a leading token 1. -/
def piped : Tokenizer where
  encode text addSpecialTokens := .ok ((if addSpecialTokens then [1] else []) ++
    text.map fun char => UInt32.ofNat char.toNat)
  specialTokenStrings := [['|']]

/-- A hash of one byte, the length of the prefix. -/
def lengthHasher : Hasher (Fin 256) := ⟨fun text => Fin.ofNat 256 text.length, Fin.val⟩

def bothCaches : CacheConfig := ⟨true, 100, true, 1000⟩

theorem piped_law : SplittingLaw piped [1] := by
  constructor
  · intro pre post _
    simp [piped, Except.bind, Except.map]
  · intro text
    simp [piped, Except.map]

/-- The prefix `a|` is stored with the leading token, and the suffix `c` gets it once more. -/
theorem leading_token_repeated : SplittingLaw piped [1] ∧ ((new bothCaches).run lengthHasher piped 10
      [(['a', '|', 'b'], true), (['a', '|', 'c'], true)]).map (fun done => done.2.map Except.toOption) =
        some [some [1, 97, 124, 98], some [1, 97, 124, 1, 99]] ∧
      piped.encode ['a', '|', 'c'] true = .ok [1, 97, 124, 99] :=
  ⟨piped_law, by decide, rfl⟩

/-- The prefixes of the calls' texts that end in a special token: all the texts that are hashed. -/
def hashedPrefixes (inner : Tokenizer) (calls : List (Text × Bool)) : Set Text :=
  {text | EndsInSpecial inner text ∧ ∃ call ∈ calls, text <+: call.1}

/-- For every tokenizer that obeys the law, every setting of the caches and every sequence of safe
calls whose hashed prefixes do not collide, each call ends and returns exactly what the wrapped
tokenizer returns for it. -/
theorem safe_calls_transparent {front : List TokenId} {config : CacheConfig}
    {calls : List (Text × Bool)} (law : SplittingLaw inner front)
    (injective : (hashedPrefixes inner calls).InjOn hasher.digest)
    (safe : ∀ call ∈ calls, Safe inner front config call) :
    ∃ enough, ∀ fuel, enough ≤ fuel → ∃ last, (new config).run hasher inner fuel calls =
      some (last, calls.map fun call => inner.encode call.1 call.2) := by
  refine ⟨(calls.map fun call => call.1.length).sum + 1, fun fuel fits => ?_⟩
  refine (sound_new config).run law injective ?_ safe ?_ fun call mem => ?_
  · simp only [new]
    cases config.enableL1 <;> rfl
  · exact fun call mem text ends front => ⟨ends, call, mem, front⟩
  · have := le_sum_of_mem (mem_map_of_mem (f := fun call : Text × Bool => call.1.length) mem)
    omega

/-- Calls with two hashed prefixes, one of them hit by the last call. -/
def pipedCalls : List (Text × Bool) :=
  [(['a', '|', 'b'], false), (['a', 'b'], true), (['|', 'c'], false), (['a', '|', 'c'], false)]

theorem hashed_piped {text : Text} (hashed : text ∈ hashedPrefixes piped pipedCalls) :
    text = ['|'] ∨ text = ['a', '|'] := by
  obtain ⟨⟨token, listed, ends⟩, call, mem, front⟩ := hashed
  rw [mem_singleton.mp listed] at ends
  have all : ∀ call ∈ pipedCalls, ∀ text ∈ call.1.inits, ['|'] <:+ text → text = ['|'] ∨ text = ['a', '|'] := by
    decide
  exact all call mem text ((mem_inits _ _).mpr front) ends

theorem piped_transparent : SplittingLaw piped [1] ∧ ∃ enough, ∀ fuel, enough ≤ fuel → ∃ last,
      (new bothCaches).run lengthHasher piped fuel pipedCalls =
        some (last, [.ok [97, 124, 98], .ok [1, 97, 98], .ok [124, 99], .ok [97, 124, 99]]) := by
  have injective : (hashedPrefixes piped pipedCalls).InjOn lengthHasher.digest := by
    intro first hashed second hashedToo same
    rcases hashed_piped hashed with rfl | rfl <;> rcases hashed_piped hashedToo with rfl | rfl
    all_goals first | rfl | exact absurd same (by decide)
  refine ⟨piped_law, safe_calls_transparent piped_law injective fun call mem => .inr ⟨?_, .inr ?_⟩⟩
  · exact forall_mem_singleton.mpr nofun
  · simp only [pipedCalls, mem_cons, not_mem_nil, or_false] at mem
    rcases mem with rfl | rfl | rfl | rfl
    · exact .inl rfl
    · refine .inr fun token listed pre post same => ?_
      rw [mem_singleton.mp listed] at same
      have inside : '|' ∈ ['a', 'b'] := by
        rw [show ['a', 'b'] = pre ++ ['|'] ++ post from same]
        simp
      exact absurd inside (by decide)
    · exact .inl rfl
    · exact .inl rfl

end CachedTokenizer
end ModelGateway.TokenizerCache
