import ModelGateway.StopDecoder
import Mathlib.Data.List.MinMax
import Mathlib.Order.Nat

/-! What the stop decoder shows of a text. While it runs, no stop string ends in the text it has
processed, and it holds the end of that text: either all of it or at least as many bytes as the
longest stop string has. So every stop string that ends in new text lies inside the searched part
of the buffer, and the decoder shows a function of the text alone. -/
namespace ModelGateway.StopDecoder
open Utf8 EarliestMatch List Option StopSequenceDecoder SequenceDecoderOutput Nat

/-! ### Stop strings -/

variable {config : StopSequenceConfig} {processed kept emitted skipped added : Text}
  {σ : Type} {self : StopSequenceDecoder σ} {jail newText : Text} {pick : List Nat → Nat} {found : Match}
  {tokenizer : Tokenizer σ} {tokenId : TokenId} {sequence : σ} {texts : List Text}

theorem nonempty_of_mem_patterns : ∀ pattern ∈ config.patterns, pattern ≠ [] := by
  intro pattern mem
  rcases mem_append.mp mem with hidden | visible
  · exact of_decide_eq_true (mem_filter.mp hidden).2
  · exact of_decide_eq_true (mem_filter.mp visible).2

theorem byteLen_le_jailMaxBytes : ∀ pattern ∈ config.patterns, byteLen pattern ≤ config.jailMaxBytes := by
  intro pattern mem
  refine le_max_of_le (mem_map_of_mem ?_) (le_refl _)
  rcases mem_append.mp mem with hidden | visible
  · exact mem_append_left _ (mem_filter.mp hidden).1
  · exact mem_append_right _ (mem_filter.mp visible).1

theorem jailMaxBytes_pos (strings : config.tokenOnly = false) : 0 < config.jailMaxBytes := by
  obtain ⟨pattern, mem⟩ := exists_mem_of_ne_nil config.patterns (by
    intro none
    rw [StopSequenceConfig.tokenOnly, none] at strings
    cases strings)
  have pos : byteLen pattern ≠ 0 := mt byteLen_eq_zero.mp (nonempty_of_mem_patterns pattern mem)
  have := byteLen_le_jailMaxBytes pattern mem
  omega

theorem jailMaxBytes_of_tokenOnly (tokens : config.tokenOnly = true) : config.jailMaxBytes = 0 := by
  obtain ⟨hidden, visible⟩ := append_eq_nil_iff.mp (isEmpty_iff.mp tokens)
  rw [filter_eq_nil_iff] at hidden visible
  refine le_zero.mp (max_le_of_forall_le (_ : List Nat) 0 fun number mem => ?_)
  obtain ⟨string, listed, rfl⟩ := mem_map.mp mem
  have empty : string = [] := by
    rcases mem_append.mp listed with first | second
    · simpa using hidden string first
    · simpa using visible string second
  rw [empty, byteLen_nil]

theorem clear_of_tokenOnly (tokens : config.tokenOnly = true) (text : Text) : Clear config.patterns text := by
  intro pre post _
  rw [endingAt_eq_nil, isEmpty_iff.mp tokens]
  exact forall_mem_nil _

/-! ### Holding text -/

/-- A decoder that runs: it has processed and emitted these texts. -/
structure Holding {σ : Type} (config : StopSequenceConfig) (processed emitted : Text)
    (decoder : StopSequenceDecoder σ) : Prop where
  running : decoder.stopped = false
  split : processed = emitted ++ decoder.jailBuffer
  clear : Clear config.patterns processed
  window : emitted = [] ∨ config.jailMaxBytes ≤ byteLen decoder.jailBuffer
  bounded : byteLen decoder.jailBuffer ≤ config.jailMaxBytes + 3
  unused : config.tokenOnly = true → decoder.jailBuffer = []

theorem early_of_clear {start : Text} (clear : Clear config.patterns processed)
    (whole : processed = start ++ kept) :
    ∀ pre post, kept = pre ++ post → endingAt config.patterns pre = [] := by
  intro pre post split
  have none := endingAt_eq_nil.mp (clear (start ++ pre) post (by rw [whole, split, append_assoc]))
  refine endingAt_eq_nil.mpr fun pattern mem ends => none pattern mem ?_
  exact ends.trans (suffix_append _ _)

theorem suffix_of_ends {pattern : Text} (mem : pattern ∈ config.patterns) (new : added ≠ [])
    (long : config.jailMaxBytes ≤ byteLen (skipped ++ kept))
    (least : ∀ inner rest, skipped ++ kept = inner ++ rest →
      byteLen (skipped ++ kept) + 1 - config.jailMaxBytes ≤ byteLen inner → byteLen skipped ≤ byteLen inner)
    (ends : pattern <:+ emitted ++ (skipped ++ kept) ++ added) : pattern <:+ kept ++ added := by
  obtain ⟨pre, ends⟩ := ends
  have sizes := congrArg byteLen ends
  have short := byteLen_le_jailMaxBytes pattern mem
  have pos : byteLen added ≠ 0 := mt byteLen_eq_zero.mp new
  rw [byteLen_append, byteLen_append, byteLen_append] at sizes
  rw [append_assoc] at ends
  obtain ⟨inner, rfl, rest⟩ := prefix_of_byteLen_le ends.symm (by omega)
  rw [byteLen_append] at sizes
  have start : byteLen skipped ≤ byteLen inner := by
    rcases lt_or_ge (byteLen inner) (byteLen (skipped ++ kept)) with inside | behind
    · obtain ⟨remaining, split, -⟩ := prefix_of_byteLen_le rest.symm (le_of_lt inside)
      exact least inner remaining split (by omega)
    · rw [byteLen_append] at behind
      omega
  rw [append_assoc] at rest
  obtain ⟨middle, -, split⟩ := prefix_of_byteLen_le rest start
  exact ⟨middle, split.symm⟩

/-- The part of the buffer that is searched. -/
structure Searched (config : StopSequenceConfig) (processed jail skipped kept : Text) : Prop where
  split : jail = skipped ++ kept
  early : ∀ pre post, kept = pre ++ post → endingAt config.patterns pre = []
  same : ∀ added, endingAt config.patterns (kept ++ added) = endingAt config.patterns (processed ++ added)

/-- Searching from `searchStart` on sees every stop string that ends in new text. -/
theorem Holding.searched (holding : Holding config processed emitted self)
    (strings : config.tokenOnly = false) (newText : Text) :
    ∃ skipped kept, Searched config processed self.jailBuffer skipped kept ∧
      searchStart config (byteLen self.jailBuffer) (self.jailBuffer ++ newText) = byteLen skipped := by
  rw [searchStart]
  split
  · rename_i long
    have pos := jailMaxBytes_pos strings
    have within : byteLen self.jailBuffer + 1 - config.jailMaxBytes ≤ byteLen self.jailBuffer := by omega
    obtain ⟨skipped, kept, jail, start, least⟩ := walkForward_append newText within
    have whole : processed = emitted ++ skipped ++ kept := by
      rw [holding.split, jail, append_assoc]
    refine ⟨skipped, kept, ⟨jail, ?_, ?_⟩, start⟩
    · exact early_of_clear holding.clear whole
    · intro added
      by_cases new : added = []
      · rw [new, append_nil, append_nil, early_of_clear holding.clear whole kept [] (append_nil _).symm,
          holding.clear processed [] (append_nil _).symm]
      · refine endingAt_congr fun pattern mem => ⟨fun ends => ?_, fun ends => ?_⟩
        · rw [whole, append_assoc]
          exact ends.trans (suffix_append _ _)
        · rw [jail] at long least
          rw [holding.split, jail] at ends
          exact suffix_of_ends mem new long least ends
  · rename_i short
    have none : emitted = [] := holding.window.resolve_right short
    have whole : processed = self.jailBuffer := by rw [holding.split, none, nil_append]
    refine ⟨[], self.jailBuffer, ⟨rfl, fun pre post split => ?_, fun added => by rw [whole]⟩, rfl⟩
    exact holding.clear pre post (whole.trans split)

/-! ### Processing text -/

/-- A rule that reports one of the patterns that end at a place. -/
def Picks (pick : List Nat → Nat) : Prop := ∀ candidates, candidates ≠ [] → pick candidates ∈ candidates

variable (config pick)

/-- What is shown of a text that a stop string ends. -/
def cutOff (pre : Text) : Text :=
  let index := pick (endingAt config.patterns pre)
  if config.visibleBoundaryIdx ≤ index then pre
  else pre.take (pre.length - (config.patterns.getD index []).length)

/-- What is shown of a text: all of it, or what the first stop string leaves. -/
def visibleText (whole : Text) : Text :=
  match scan pick config.patterns [] whole with
  | none => whole
  | some (_, stop) => cutOff config pick (whole.take stop)

/-- A decoder that has stopped holds nothing. -/
structure Halted {σ : Type} (decoder : StopSequenceDecoder σ) : Prop where
  stopped : decoder.stopped = true
  empty : decoder.jailBuffer = []

variable {config pick} (searched : Searched config processed jail skipped kept)
include searched

theorem Searched.drop_bytes (newText : Text) :
    (bytes (jail ++ newText)).drop (byteLen skipped) = bytes (kept ++ newText) := by
  rw [searched.split, append_assoc, bytes_append, byteLen, drop_left]

theorem Searched.clear_of_none (clear : Clear config.patterns processed)
    (found : StopSequenceDecoder.find pick config.patterns (jail ++ newText) (byteLen skipped) = none) :
    Clear config.patterns (processed ++ newText) := by
  rw [StopSequenceDecoder.find, map_eq_none_iff, searched.drop_bytes,
    scan_bytes_eq_none nonempty_of_mem_patterns] at found
  intro pre post split
  rcases append_eq_append_iff.mp split with ⟨added, rfl, new⟩ | ⟨rest, old, -⟩
  · rw [← searched.same]
    exact found (kept ++ added) post (by rw [new, append_assoc])
  · exact clear pre rest old

theorem Searched.first_of_some (clear : Clear config.patterns processed)
    (reported : StopSequenceDecoder.find pick config.patterns (jail ++ newText) (byteLen skipped) = some found) :
    ∃ added rest, newText = added ++ rest ∧ EndsFirst config.patterns (processed ++ added) ∧
      found.pattern = pick (endingAt config.patterns (processed ++ added)) ∧
      found.stop = byteLen (jail ++ added) ∧
      found.start = found.stop - byteLen (config.patterns.getD found.pattern []) := by
  obtain ⟨⟨index, length⟩, seen, rfl⟩ := map_eq_some_iff.mp reported
  rw [searched.drop_bytes] at seen
  obtain ⟨pre, post, split, first, values⟩ := scan_bytes_eq_some nonempty_of_mem_patterns seen
  obtain ⟨rfl, rfl⟩ := Prod.mk.inj values
  rcases append_eq_append_iff.mp split with ⟨added, rfl, rest⟩ | ⟨inner, split, -⟩
  · refine ⟨added, post, rest, ⟨?_, fun shorter more nonnil parts => ?_⟩, ?_, ?_, rfl⟩
    · rw [← searched.same]
      exact first.ends
    · rcases append_eq_append_iff.mp parts with ⟨fewer, rfl, new⟩ | ⟨inner, old, -⟩
      · rw [← searched.same]
        exact first.first (kept ++ fewer) more nonnil (by rw [new, append_assoc])
      · exact clear shorter inner old
    · rw [searched.same]
    · simp only [searched.split, byteLen_append, Nat.add_assoc]
  · exact absurd (searched.early pre inner split) first.ends

omit searched

/-- The output at a stop string completes what is shown of the text. -/
theorem stopAt_first (rest : Text) (picks : Picks pick) (whole : processed = emitted ++ self.jailBuffer)
    (searchedFrom : ∃ skipped kept, Searched config processed self.jailBuffer skipped kept)
    (first : EndsFirst config.patterns (processed ++ added))
    (pattern : found.pattern = pick (endingAt config.patterns (processed ++ added)))
    (stop : found.stop = byteLen (self.jailBuffer ++ added))
    (start : found.start = found.stop - byteLen (config.patterns.getD found.pattern [])) :
    ∃ next output, self.stopAt config (self.jailBuffer ++ (added ++ rest)) found = some (next, output) ∧
      Halted next ∧ emitted ++ output.shown = cutOff config pick (processed ++ added) := by
  have shown : emitted ++ (self.jailBuffer ++ added) = processed ++ added := by
    rw [whole, append_assoc]
  rw [stopAt, cutOff, ← pattern, ← append_assoc]
  split
  · rw [stop, splitAt?_byteLen, map_some]
    exact ⟨_, _, rfl, ⟨rfl, rfl⟩, shown⟩
  · -- the stop string is a part of what the buffer holds
    obtain ⟨skipped, kept, searched⟩ := searchedFrom
    have candidate := picks _ first.ends
    rw [← pattern, ← searched.same] at candidate
    obtain ⟨string, listed, pre, split⟩ := mem_endingAt.mp candidate
    have listedToo : config.patterns.getD found.pattern [] = string := by
      rw [getD_eq_getElem?_getD, listed, getD_some]
    have buffer : self.jailBuffer ++ added = skipped ++ pre ++ string := by
      rw [searched.split, append_assoc, append_assoc, split]
    have begins : found.start = byteLen (skipped ++ pre) := by
      rw [start, stop, listedToo, buffer, byteLen_append, Nat.add_sub_cancel]
    have kept : (processed ++ added).take
        ((processed ++ added).length - (config.patterns.getD found.pattern []).length) =
        emitted ++ (skipped ++ pre) := by
      rw [← shown, buffer, listedToo, ← append_assoc, length_append, Nat.add_sub_cancel, take_left]
    rw [begins, buffer, append_assoc _ string, splitAt?_byteLen, map_some, kept]
    refine ⟨_, _, rfl, ⟨rfl, rfl⟩, ?_⟩
    split
    · exact congrArg (emitted ++ ·) ‹skipped ++ pre = []›.symm
    · rfl

/-- Draining keeps what may still become part of a stop string. -/
theorem drain_holding {buffer : Text} (strings : config.tokenOnly = false) (running : self.stopped = false)
    (whole : processed = emitted ++ buffer) (clear : Clear config.patterns processed)
    (window : emitted = [] ∨ config.jailMaxBytes ≤ byteLen buffer) :
    ∃ next output, self.drain config buffer = some (next, output) ∧
      Holding config processed (emitted ++ output.shown) next := by
  have held (bounded : byteLen buffer ≤ config.jailMaxBytes + 3) :
      Holding config processed (emitted ++ held.shown) { self with jailBuffer := buffer } :=
    ⟨running, by rw [whole, shown, append_nil], clear, by rwa [shown, append_nil], bounded, by simp [strings]⟩
  rw [drain]
  split
  · have reached := le_walkBack_add_three (sub_le (byteLen buffer) config.jailMaxBytes)
    have notPast := walkBack_le buffer (byteLen buffer - config.jailMaxBytes)
    dsimp only
    split
    · obtain ⟨pre, post, rfl, size⟩ := isCharBoundary_iff.mp
        (isCharBoundary_walkBack buffer (byteLen buffer - config.jailMaxBytes))
      have total := byteLen_append pre post
      rw [← size] at reached notPast
      rw [← size, splitAt?_byteLen, map_some]
      refine ⟨_, _, rfl, running, ?_, clear, .inr ?_, ?_, by simp [strings]⟩
      · rw [whole, shown, append_assoc]
      · show config.jailMaxBytes ≤ byteLen post
        omega
      · show byteLen post ≤ config.jailMaxBytes + 3
        omega
    · exact ⟨_, _, rfl, held (by omega)⟩
  · exact ⟨_, _, rfl, held (by omega)⟩

/-- New text is processed without a panic. Either no stop string ends in it, or the decoder stops
at the first one that does. -/
theorem Holding.processText (holding : Holding config processed emitted self) (picks : Picks pick)
    (strings : config.tokenOnly = false) (newText : Text) :
    ∃ next output, self.processText config pick newText = some (next, output) ∧
      (Holding config (processed ++ newText) (emitted ++ output.shown) next ∨
        Halted next ∧ ∃ added rest, newText = added ++ rest ∧ EndsFirst config.patterns (processed ++ added) ∧
          emitted ++ output.shown = cutOff config pick (processed ++ added)) := by
  obtain ⟨skipped, kept, searched, start⟩ := holding.searched strings newText
  have within : ¬ byteLen (self.jailBuffer ++ newText) + 1 < byteLen skipped := by
    rw [byteLen_append, searched.split, byteLen_append]
    omega
  rw [StopSequenceDecoder.processText, start]
  simp only [if_neg within]
  cases found : StopSequenceDecoder.find pick config.patterns (self.jailBuffer ++ newText) (byteLen skipped) with
  | none =>
    have clear := searched.clear_of_none holding.clear found
    have whole : processed ++ newText = emitted ++ (self.jailBuffer ++ newText) := by
      rw [holding.split, append_assoc]
    have window : emitted = [] ∨ config.jailMaxBytes ≤ byteLen (self.jailBuffer ++ newText) := by
      rw [byteLen_append]
      exact holding.window.imp_right fun long => le_trans long (le_add_right _ _)
    obtain ⟨next, output, drained, post⟩ := drain_holding strings holding.running whole clear window
    exact ⟨next, output, drained, .inl post⟩
  | some found =>
    obtain ⟨added, rest, rfl, first, pattern, stop, begins⟩ := searched.first_of_some holding.clear ‹_›
    obtain ⟨next, output, stopped, halted, shown⟩ := stopAt_first rest picks holding.split
      ⟨skipped, kept, searched⟩ first pattern stop begins
    exact ⟨next, output, stopped, .inr ⟨halted, added, rest, rfl, first, shown⟩⟩

/-- Processing text keeps the sequence, and it stops the decoder unless it shows text or holds it back. -/
theorem processText_frame {next : StopSequenceDecoder σ} {output : SequenceDecoderOutput}
    (processed : self.processText config pick newText = some (next, output)) :
    next.sequence = self.sequence ∧ (next.stopped = true ∨ output = .held ∨ ∃ shown, output = .text shown) := by
  simp only [processText] at processed
  split at processed
  · cases processed
  · split at processed
    · simp only [stopAt] at processed
      split at processed
      all_goals
        obtain ⟨parts, -, values⟩ := map_eq_some_iff.mp processed
        rw [← (Prod.mk.inj values).1]
        exact ⟨rfl, .inl rfl⟩
    · simp only [drain] at processed
      split at processed
      · split at processed
        · obtain ⟨parts, -, values⟩ := map_eq_some_iff.mp processed
          cases values
          exact ⟨rfl, .inr (.inr ⟨_, rfl⟩)⟩
        · cases processed
          exact ⟨rfl, .inr (.inl rfl)⟩
      · cases processed
        exact ⟨rfl, .inr (.inl rfl)⟩

/-! ### Processing tokens -/

/-- What a decoder has made of the text it was given. -/
def Processed {σ : Type} (config : StopSequenceConfig) (pick : List Nat → Nat) (processed emitted : Text)
    (decoder : StopSequenceDecoder σ) : Prop :=
  Holding config processed emitted decoder ∨
    Halted decoder ∧ ∃ pre post, processed = pre ++ post ∧ EndsFirst config.patterns pre ∧
      emitted = cutOff config pick pre

/-- Neither a hidden nor a visible stop token. -/
def Ordinary (config : StopSequenceConfig) (tokenId : TokenId) : Prop :=
  tokenId ∉ config.stopTokens ∧ tokenId ∉ config.visibleStopTokens

theorem holding_new (config : StopSequenceConfig) (tokenizer : Tokenizer σ) :
    Holding config [] [] (StopSequenceDecoder.new tokenizer) where
  running := rfl
  split := rfl
  clear := by
    intro pre post split
    rw [(append_eq_nil_iff.mp split.symm).1, endingAt_eq_nil]
    exact fun pattern mem ends =>
      nonempty_of_mem_patterns pattern mem (suffix_nil.mp ends)
  window := .inl rfl
  bounded := zero_le _
  unused := fun _ => rfl

theorem Holding.processToken {piece : Text} (holding : Holding config processed emitted self)
    (picks : Picks pick) (ordinary : Ordinary config tokenId)
    (decoded : tokenizer.appendToken self.sequence tokenId = (sequence, .ok piece)) :
    ∃ next output, self.processToken tokenizer config pick tokenId = some (next, .ok output) ∧
      (Holding config (processed ++ piece) (emitted ++ output.shown) next ∧ next.sequence = sequence ∨
        Halted next ∧ ∃ added rest, piece = added ++ rest ∧ EndsFirst config.patterns (processed ++ added) ∧
          emitted ++ output.shown = cutOff config pick (processed ++ added)) := by
  rw [StopSequenceDecoder.processToken, if_neg (by simp [holding.running]), if_neg ordinary.1,
    if_neg ordinary.2, decoded]
  by_cases tokens : config.tokenOnly = true
  · refine ⟨_, _, if_pos tokens, .inl ⟨⟨holding.running, ?_, clear_of_tokenOnly tokens _, ?_,
      holding.bounded, holding.unused⟩, rfl⟩⟩
    · have emittedAll : emitted = processed := by
        rw [holding.split, holding.unused tokens, append_nil]
      have shown : shown (if piece = [] then .held else .text piece) = piece := by
        split
        · exact ‹piece = []›.symm
        · rfl
      rw [shown, emittedAll, holding.unused tokens, append_nil]
    · rw [jailMaxBytes_of_tokenOnly tokens]
      exact .inr (zero_le _)
  · have decoding : Holding config processed emitted { self with sequence := sequence } := { holding with }
    obtain ⟨next, output, step, post⟩ := decoding.processText picks (Bool.eq_false_iff.mpr tokens) piece
    refine ⟨next, output, ?_, post.imp_left fun held => ⟨held, (processText_frame step).1⟩⟩
    simp only [if_neg tokens, step, map_some]

theorem Halted.processToken (halted : Halted self) (tokenizer : Tokenizer σ) (config : StopSequenceConfig)
    (pick : List Nat → Nat) (tokenId : TokenId) :
    self.processToken tokenizer config pick tokenId = some (self, .ok .stopped) := by
  rw [StopSequenceDecoder.processToken, if_pos halted.stopped]

theorem Halted.run (halted : Halted self) (tokenizer : Tokenizer σ) (config : StopSequenceConfig)
    (pick : List Nat → Nat) (tokens : List TokenId) :
    ∃ outputs, self.run tokenizer config pick tokens = some (self, outputs) ∧ shownText outputs = [] := by
  induction tokens with
  | nil => exact ⟨[], rfl, rfl⟩
  | cons tokenId rest ih =>
    obtain ⟨outputs, steps, none⟩ := ih
    refine ⟨.stopped :: outputs, ?_, none⟩
    rw [StopSequenceDecoder.run, halted.processToken]
    simp only [steps, map_some]

theorem Tokenizer.pieces_cons {rest : List TokenId}
    (decoded : tokenizer.pieces sequence (tokenId :: rest) = some texts) :
    ∃ next piece others, tokenizer.appendToken sequence tokenId = (next, .ok piece) ∧
      tokenizer.pieces next rest = some others ∧ texts = piece :: others := by
  rw [Tokenizer.pieces] at decoded
  split at decoded
  · rename_i next piece appended
    obtain ⟨others, remaining, rfl⟩ := map_eq_some_iff.mp decoded
    exact ⟨next, piece, others, appended, remaining, rfl⟩
  · cases decoded

theorem shownText_cons (output : SequenceDecoderOutput) (outputs : List SequenceDecoderOutput) :
    shownText (output :: outputs) = output.shown ++ shownText outputs := flatMap_cons

theorem Holding.run {tokens : List TokenId} (holding : Holding config processed emitted self)
    (picks : Picks pick) (ordinary : ∀ tokenId ∈ tokens, Ordinary config tokenId)
    (decoded : tokenizer.pieces self.sequence tokens = some texts) :
    ∃ next outputs, self.run tokenizer config pick tokens = some (next, outputs) ∧
      Processed config pick (processed ++ texts.flatten) (emitted ++ shownText outputs) next := by
  induction tokens generalizing self processed emitted texts with
  | nil =>
    cases decoded
    refine ⟨self, [], rfl, .inl ?_⟩
    rwa [flatten_nil, append_nil, shownText, flatMap_nil, append_nil]
  | cons tokenId rest ih =>
    obtain ⟨sequence, piece, others, appended, remaining, rfl⟩ := Tokenizer.pieces_cons decoded
    obtain ⟨next, output, step, post⟩ := holding.processToken picks (ordinary tokenId mem_cons_self) appended
    have collected (outputs : List SequenceDecoderOutput) :
        emitted ++ shownText (output :: outputs) = emitted ++ output.shown ++ shownText outputs := by
      rw [shownText_cons, append_assoc]
    rcases post with ⟨held, rfl⟩ | ⟨halted, added, left, rfl, first, shown⟩
    · obtain ⟨last, outputs, steps, processed⟩ :=
        ih held (fun tokenId mem => ordinary tokenId (mem_cons_of_mem _ mem)) remaining
      refine ⟨last, output :: outputs, ?_, ?_⟩
      · rw [StopSequenceDecoder.run, step]
        simp only [steps, map_some]
      · rwa [collected, flatten_cons, ← append_assoc]
    · obtain ⟨outputs, steps, none⟩ := halted.run tokenizer config pick rest
      refine ⟨next, output :: outputs, ?_, .inr ⟨halted, processed ++ added, left ++ others.flatten, ?_, first, ?_⟩⟩
      · rw [StopSequenceDecoder.run, step]
        simp only [steps, map_some]
      · simp only [flatten_cons, append_assoc]
      · rw [collected, none, append_nil, shown]

/-! ### What is shown -/

variable (config pick)

/-- The occurrence of a stop string that ends first, as the search reports it. -/
structure FirstStop (whole pre string post : Text) (index : Nat) : Prop where
  occurs : whole = pre ++ string ++ post
  listed : config.patterns[index]? = some string
  earliest : ∀ other ∈ config.patterns, ∀ left right, whole = left ++ other ++ right →
    (pre ++ string).length ≤ (left ++ other).length
  picked : index = pick (endingAt config.patterns (pre ++ string))

/-- All of a text without stop strings is shown. Otherwise it is cut off at the stop string that
ends first, before a hidden one and after a visible one. -/
structure Shows (whole shown : Text) : Prop where
  all : (∀ string ∈ config.patterns, ¬ string <:+: whole) → shown = whole
  cut : (∃ string ∈ config.patterns, string <:+: whole) →
    ∃ pre string post index, FirstStop config pick whole pre string post index ∧
      shown = if index < config.visibleBoundaryIdx then pre else pre ++ string

variable {config pick}

theorem firstStop_of_endsFirst {stopped : Text} (picks : Picks pick)
    (first : EndsFirst config.patterns stopped) (post : Text) :
    ∃ pre string index, FirstStop config pick (stopped ++ post) pre string post index ∧
      cutOff config pick stopped =
        if index < config.visibleBoundaryIdx then pre else pre ++ string := by
  obtain ⟨string, listed, pre, rfl⟩ := mem_endingAt.mp (picks _ first.ends)
  refine ⟨pre, string, _, ⟨rfl, listed, fun other mem left right same => ?_, rfl⟩, ?_⟩
  · exact first.length_le mem same
  · have stripped : (pre ++ string).take ((pre ++ string).length - string.length) = pre := by
      rw [length_append, Nat.add_sub_cancel, take_left]
    rw [cutOff]
    simp only [getD_eq_getElem?_getD, listed, getD_some, stripped]
    split
    · rw [if_neg (not_lt.mpr ‹_›)]
    · rw [if_pos (not_le.mp ‹_›)]

theorem visibleText_of_clear {whole : Text} (pick : List Nat → Nat) (clear : Clear config.patterns whole) :
    visibleText config pick whole = whole := by
  rw [visibleText, scan_of_clear clear]

theorem visibleText_of_endsFirst {pre : Text} (pick : List Nat → Nat)
    (first : EndsFirst config.patterns pre) (post : Text) :
    visibleText config pick (pre ++ post) = cutOff config pick pre := by
  rw [visibleText, scan_of_endsFirst first]
  simp only [take_left]

theorem shows_visibleText (config : StopSequenceConfig) (picks : Picks pick) (whole : Text) :
    Shows config pick whole (visibleText config pick whole) where
  all none := visibleText_of_clear pick (clear_iff.mpr none)
  cut := by
    rintro ⟨string, mem, occurs⟩
    cases reported : scan pick config.patterns [] whole with
    | none =>
      have clear : Clear config.patterns whole := scan_eq_none.mp reported
      exact absurd occurs (clear_iff.mp clear string mem)
    | some found =>
      obtain ⟨pre, post, rfl, ends, earliest, -⟩ := scan_eq_some reported
      have first : EndsFirst config.patterns pre := ⟨ends, earliest⟩
      obtain ⟨start, string, index, stop, cut⟩ := firstStop_of_endsFirst picks first post
      exact ⟨start, string, post, index, stop, (visibleText_of_endsFirst pick first post).trans cut⟩

theorem shown_flush (self : StopSequenceDecoder σ) : self.flush.2.shown = self.jailBuffer := by
  rw [flush]
  split
  · exact ‹self.jailBuffer = []›.symm
  · rfl

theorem Processed.visible (done : Processed config pick processed emitted self) :
    emitted ++ self.flush.2.shown = visibleText config pick processed := by
  rw [shown_flush]
  rcases done with holding | ⟨halted, pre, post, rfl, first, rfl⟩
  · rw [visibleText_of_clear pick holding.clear, holding.split]
  · rw [halted.empty, append_nil, visibleText_of_endsFirst pick first]

/-- A tokenizer with one token for each character. -/
def letters : Tokenizer Unit where
  start := ()
  appendToken _ tokenId := ((), .ok [Char.ofNat tokenId.toNat])
  decode tokens := .ok (tokens.map fun tokenId => Char.ofNat tokenId.toNat)

/-- An empty stop string occurs in every text and stops nothing. -/
theorem empty_stop_ignored : [] ∈ ({ stopSequences := [[]] } : StopSequenceConfig).stopSequences ∧ [] <:+: ['a'] ∧
      (StopSequenceDecoder.new letters).run letters { stopSequences := [[]] } (·.headD 0) [97] =
        some (⟨(), [], false⟩, [.text ['a']]) :=
  ⟨mem_singleton_self _, nil_infix, by decide⟩

/-- Whatever the stop strings and the decoded pieces, every token is processed without a panic. The
text shown up to a final flush is a function of the decoded text, cut off at the first stop string
if there is one; the decoder has stopped exactly if a stop string has occurred, shows nothing more
from then on, and never holds more than three bytes above the longest stop string. -/
theorem run_shows {σ : Type} (tokenizer : Tokenizer σ) (config : StopSequenceConfig)
    {pick : List Nat → Nat} {tokens : List TokenId} {texts : List Text} (picks : Picks pick)
    (ordinary : ∀ tokenId ∈ tokens, Ordinary config tokenId)
    (decoded : tokenizer.pieces tokenizer.start tokens = some texts) : ∃ next outputs,
      (StopSequenceDecoder.new tokenizer).run tokenizer config pick tokens = some (next, outputs) ∧
      shownText outputs ++ next.flush.2.shown = visibleText config pick texts.flatten ∧
      Shows config pick texts.flatten (visibleText config pick texts.flatten) ∧
      byteLen next.jailBuffer ≤ config.jailMaxBytes + 3 ∧
      (next.stopped = true ↔ ∃ string ∈ config.patterns, string <:+: texts.flatten) ∧
      (next.stopped = true → next.flush = (next, .held) ∧ ∀ tokenId,
        next.processToken tokenizer config pick tokenId = some (next, .ok .stopped)) := by
  obtain ⟨next, outputs, steps, done⟩ := (holding_new config tokenizer).run picks ordinary decoded
  rw [nil_append, nil_append] at done
  refine ⟨next, outputs, steps, done.visible, shows_visibleText config picks _, ?_⟩
  rcases done with holding | ⟨halted, pre, post, whole, first, -⟩
  · have none := clear_iff.mp holding.clear
    refine ⟨holding.bounded, ⟨fun stopped => ?_, fun ⟨string, mem, occurs⟩ => ?_⟩, fun stopped => ?_⟩
    · exact absurd stopped (by simp [holding.running])
    · exact absurd occurs (none string mem)
    · exact absurd stopped (by simp [holding.running])
  · refine ⟨by rw [halted.empty]; exact zero_le _, ⟨fun _ => ?_, fun _ => halted.stopped⟩,
      fun _ => ⟨?_, halted.processToken tokenizer config pick⟩⟩
    · rw [whole]
      obtain ⟨index, candidate⟩ := exists_mem_of_ne_nil _ first.ends
      obtain ⟨string, listed, start, rfl⟩ := mem_endingAt.mp candidate
      exact ⟨string, mem_of_getElem? listed, start, post, rfl⟩
    · rw [flush, if_pos halted.empty]

theorem picks_head : Picks (·.headD 0) := by
  intro candidates some
  cases candidates with
  | nil => exact absurd rfl some
  | cons head rest => exact mem_cons_self

theorem letters_shown : ∃ next outputs,
    (StopSequenceDecoder.new letters).run letters { stopSequences := [['b', 'c']] } (·.headD 0)
      [97, 98, 99, 100] = some (next, outputs) ∧ shownText outputs ++ next.flush.2.shown = ['a'] := by
  have decoded : letters.pieces letters.start [97, 98, 99, 100] = some [['a'], ['b'], ['c'], ['d']] := by decide
  obtain ⟨next, outputs, steps, shown, -⟩ :=
    run_shows letters { stopSequences := [['b', 'c']] } picks_head (fun _ _ => ⟨nofun, nofun⟩) decoded
  exact ⟨next, outputs, steps, shown.trans (by decide)⟩

end ModelGateway.StopDecoder
