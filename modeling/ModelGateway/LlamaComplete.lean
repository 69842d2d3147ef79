import ModelGateway.MarkedToolParsers

/-! Complete Llama answers (`parsers/llama.rs`).  The objects behind the python tag are told apart at
semicolons, also at those within their strings. -/
namespace ModelGateway.LlamaComplete
open Json PartialJson JsonToolParser ToolParsers List
open Occurrences hiding contains

variable {F : Type} (serde : Serde F) (fmt : F → Text)

def extractContentAfterPythonTag (text : Text) : Option (Text × Text) :=
  (find llama.botToken text).map fun tagPos =>
    (text.take tagPos, text.drop (tagPos + llama.botToken.length))

def parseSingleObject (value : Value F) : Option ToolCall :=
  (toolName value).map fun name =>
    ⟨name, serialize fmt ((value.get "parameters".toList).getD (.object []))⟩

/-- Parts that are no JSON are skipped. -/
def parseSemicolonSeparated (content : Text) : List ToolCall :=
  (content.splitOn ';').filterMap fun part =>
    if trim part = [] then none else (serde.fromStr (trim part)).bind (parseSingleObject fmt)

/-- One object, or objects between semicolons. -/
def parseContent (jsonContent : Text) : List ToolCall :=
  if ';' ∈ jsonContent then parseSemicolonSeparated serde fmt jsonContent
  else ((serde.fromStr (trim jsonContent)).bind (parseSingleObject fmt)).toList

/-- `LlamaParser::parse_complete`: the normal text and the calls. -/
def parseComplete (text : Text) : Text × List ToolCall :=
  let content := (extractContentAfterPythonTag text).or
    (if ['\x7b'].isPrefixOf (skipWhitespace text) then some ([], text) else none)
  match content with
  | none => (text, [])
  | some (normalText, jsonContent) =>
    let tools := parseContent serde fmt jsonContent
    if tools = [] then (text, []) else (normalText, tools)

structure Call (F : Type) where
  name : Text
  parameters : Value F

def Call.value (call : Call F) : Value F :=
  .object [("name".toList, .string call.name), ("parameters".toList, call.parameters)]

def Call.text (call : Call F) : Text := serialize fmt call.value

def Call.toolCall (call : Call F) : ToolCall := ⟨call.name, serialize fmt call.parameters⟩

/-- The calls one after the other. -/
def joined (calls : List (Call F)) : Text := [';'].intercalate (calls.map (Call.text fmt))

/-- What is taken for granted of `serde_json`.  Within a text that it reads, let a part, without the whitespace
around it, be read as an object with a name: the part is the text, or it stands behind a bracket, a comma, a
colon or whitespace. -/
def Nests (serde : Serde F) : Prop :=
  ∀ pre part post whole value, serde.fromStr (pre ++ (part ++ post)) = some whole →
    serde.fromStr (trim part) = some value → toolName value ≠ none →
      (pre = [] ∧ ∀ char ∈ post, isWhitespace char = true) ∨
        ∃ char ∈ pre.getLast?, char ∈ ['[', ',', ':'] ∨ isWhitespace char = true

section
variable {serde fmt} {calls : List (Call F)}

theorem Call.text_eq (call : Call F) : ∃ inner, call.text fmt = '\x7b' :: (inner ++ ['\x7d']) := by
  simp only [Call.text, serialize, Call.value, render, renderFields, renderMoreFields, ← append_assoc, ← cons_append]
  exact ⟨_, rfl⟩

theorem trim_text (call : Call F) : trim (call.text fmt) = call.text fmt := by
  obtain ⟨inner, braces⟩ := @call.text_eq _ fmt
  have opening : isWhitespace '\x7b' = false := by decide
  have closing : isWhitespace '\x7d' = false := by decide
  simp [braces, trim, skipWhitespace, opening, closing]

theorem splitOn_append (text rest : Text) : (text ++ ';' :: rest).splitOn ';' = text.splitOn ';' ++ rest.splitOn ';' :=
  splitOnP_append_cons text rest (beq_self_eq_true ';')

theorem splitOn_of_not_mem {text : Text} (absent : ';' ∉ text) : text.splitOn ';' = [text] :=
  splitOnP_eq_singleton fun _ inside => beq_eq_false_iff_ne.mpr fun same => absent (same ▸ inside)

theorem joined_cons (call next : Call F) (rest : List (Call F)) :
    joined fmt (call :: next :: rest) = call.text fmt ++ ';' :: joined fmt (next :: rest) := by
  simp [joined, intercalate]

/-- A part of a text, read as a call. -/
def readPart (serde : Serde F) (fmt : F → Text) (part : Text) : Option ToolCall :=
  (serde.fromStr (trim part)).bind (parseSingleObject fmt)

variable (nests : Nests serde)
include nests

/-- A part before a semicolon at the front of the text, or behind a semicolon, a tag or a brace, is no call. -/
theorem readPart_lost {pre part post : Text} {whole : Value F}
    (read : serde.fromStr (pre ++ (part ++ post)) = some whole)
    (cut : (∃ front, ∃ mark ∈ [';', '>', '\x7b'], pre = front ++ [mark]) ∨ pre = [] ∧ ∃ rest, post = ';' :: rest) :
    readPart serde fmt part = none := by
  refine Option.bind_eq_none_iff.mpr fun value inner => ?_
  by_contra called
  have named : toolName value ≠ none := fun none => called (by rw [parseSingleObject, none]; rfl)
  rcases nests _ _ _ _ _ read inner named with ⟨rfl, blank⟩ | ⟨char, last, stands⟩
  · rcases cut with ⟨front, _, _, behind⟩ | ⟨-, rest, rfl⟩
    · cases front <;> cases behind
    · exact absurd (blank ';' mem_cons_self) (by decide)
  · rcases cut with ⟨front, mark, marked, rfl⟩ | ⟨rfl, -⟩
    · obtain rfl : mark = char := by simpa using last
      simp only [mem_cons, not_mem_nil, or_false] at marked
      rcases marked with rfl | rfl | rfl <;> exact absurd stands (by decide)
    · cases last

/-- Behind a semicolon or a tag in a text, no part is a call. -/
theorem parts_lost {front text : Text} {mark : Char} {whole : Value F} (marked : mark ∈ [';', '>', '\x7b'])
    (read : serde.fromStr (front ++ mark :: text) = some whole) :
    (text.splitOn ';').filterMap (readPart serde fmt) = [] := by
  induction size : text.length using Nat.strongRecOn generalizing front text mark with
  | ind size ih =>
    have lost (part post : Text) (parts : text = part ++ post) : readPart serde fmt part = none := by
      rw [parts, ← singleton_append, ← append_assoc] at read
      exact readPart_lost nests read (.inl ⟨front, mark, marked, rfl⟩)
    by_cases split : ';' ∈ text
    · obtain ⟨first, rest, rfl, absent⟩ := eq_append_cons_of_mem split
      rw [splitOn_append, splitOn_of_not_mem absent, singleton_append, filterMap_cons, lost first _ rfl]
      rw [← cons_append, ← append_assoc] at read
      exact ih rest.length (by simp at size; omega) (by decide) read rfl
    · rw [splitOn_of_not_mem split, filterMap_cons, lost text [] (append_nil text).symm]
      rfl

variable (reads : ∀ call ∈ calls, serde.fromStr (call.text fmt) = some call.value)
include reads

theorem parseContent_eq (nonempty : calls ≠ []) (content : Text) :
    parseContent serde fmt content = (content.splitOn ';').filterMap (readPart serde fmt) := by
  obtain ⟨call, known⟩ := exists_mem_of_ne_nil calls nonempty
  have empty : readPart serde fmt [] = none := by
    obtain ⟨inner, braces⟩ := @call.text_eq _ fmt
    have read : serde.fromStr (['\x7b'] ++ ([] ++ (inner ++ ['\x7d']))) = some call.value := by
      rw [nil_append, singleton_append, ← braces, reads call known]
    exact readPart_lost nests read (.inl ⟨[], '\x7b', by decide, rfl⟩)
  unfold parseContent
  split
  · refine filterMap_congr fun part _ => ?_
    split
    · next blank => rw [← empty, readPart, readPart, blank]; rfl
    · rfl
  · next absent =>
    rw [splitOn_of_not_mem absent, filterMap_cons, filterMap_nil]
    cases read : readPart serde fmt content <;> exact congrArg Option.toList read

/-- The calls without a semicolon are read, and the others are lost. -/
theorem filterMap_joined (nonempty : calls ≠ []) :
    ((joined fmt calls).splitOn ';').filterMap (readPart serde fmt) =
      (calls.filter fun call => ';' ∉ call.text fmt).map (Call.toolCall fmt) := by
  induction calls with
  | nil => exact absurd rfl nonempty
  | cons call rest ih =>
    obtain ⟨read, reads⟩ := forall_mem_cons.mp reads
    have here : ((call.text fmt).splitOn ';').filterMap (readPart serde fmt) =
        ([call].filter fun call => ';' ∉ call.text fmt).map (Call.toolCall fmt) := by
      by_cases split : ';' ∈ call.text fmt
      · obtain ⟨first, post, text, absent⟩ := eq_append_cons_of_mem split
        rw [filter_cons_of_neg (by simpa using split), text, splitOn_append, splitOn_of_not_mem absent,
          singleton_append, filterMap_cons]
        rw [text] at read
        have whole : serde.fromStr ([] ++ (first ++ ';' :: post)) = some call.value := read
        rw [readPart_lost nests whole (.inr ⟨rfl, _, rfl⟩)]
        exact parts_lost nests (by decide) read
      · rw [splitOn_of_not_mem split, filterMap_cons, readPart, trim_text, read,
          filter_cons_of_pos (by simpa using split)]
        rfl
    cases rest with
    | nil => rwa [joined, map_singleton, intercalate_singleton]
    | cons next rest =>
      rw [joined_cons, splitOn_append, filterMap_append, here, ih reads (cons_ne_nil _ _), ← map_append, ← filter_append,
        singleton_append]

omit nests reads in
theorem tag_inside {text rest content : Text} (cut : text ++ ';' :: rest = llama.botToken ++ content) :
    ∃ tail, text = llama.botToken ++ tail ∧ content = tail ++ ';' :: rest := by
  rcases append_eq_append_iff.mp cut with ⟨extra, tag, behind⟩ | ⟨tail, inside, behind⟩
  · cases extra with
    | nil => exact ⟨[], by rw [append_nil, tag, append_nil], behind.symm⟩
    | cons char extra =>
      have semicolon : ';' ∈ llama.botToken := by
        rw [tag, (cons.inj behind).1]
        exact mem_append_right _ mem_cons_self
      exact absurd semicolon (by decide)
  · exact ⟨tail, inside, behind⟩

/-- Behind a tag that stands in a call, fewer calls are read. -/
theorem parts_tagged {front content : Text} (cut : joined fmt calls = front ++ (llama.botToken ++ content)) :
    ((content.splitOn ';').filterMap (readPart serde fmt)).length < calls.length := by
  induction calls generalizing front with
  | nil => cases front <;> cases cut
  | cons call rest ih =>
    obtain ⟨read, reads⟩ := forall_mem_cons.mp reads
    have lost {pre tail : Text} (text : call.text fmt = pre ++ (llama.botToken ++ tail)) :
        (tail.splitOn ';').filterMap (readPart serde fmt) = [] := by
      rw [text, show llama.botToken = llama.botToken.dropLast ++ ['>'] by decide, append_assoc, ← append_assoc] at read
      exact parts_lost nests (by decide) read
    cases rest with
    | nil =>
      rw [joined, map_singleton, intercalate_singleton] at cut
      rw [lost cut]
      exact Nat.one_pos
    | cons next rest =>
      rw [joined_cons] at cut
      rcases append_eq_append_iff.mp cut with ⟨mid, rfl, later⟩ | ⟨mid, text, here⟩
      · -- the tag stands in a later call
        cases mid with
        | nil => cases later
        | cons char mid => exact (ih reads (cons.inj later).2).trans (Nat.lt_succ_self _)
      · obtain ⟨tail, rfl, rfl⟩ := tag_inside here.symm
        rw [splitOn_append, filterMap_append, lost text, nil_append, filterMap_joined nests reads (cons_ne_nil _ _),
          length_map]
        exact (length_filter_le _ _).trans_lt (Nat.lt_succ_self _)

omit nests reads in
theorem parseComplete_of_content {text normalText jsonContent : Text} (found : (extractContentAfterPythonTag text).or
      (if ['\x7b'].isPrefixOf (skipWhitespace text) then some ([], text) else none) = some (normalText, jsonContent)) :
    (parseComplete serde fmt text).2 = parseContent serde fmt jsonContent ∧
      (parseContent serde fmt jsonContent ≠ [] → (parseComplete serde fmt text).1 = normalText) := by
  unfold parseComplete
  rw [found]
  dsimp only
  split
  · next none => exact ⟨none.symm, fun some => absurd none some⟩
  · exact ⟨rfl, fun _ => rfl⟩

/-- The calls are parsed in order exactly if none has a semicolon and, where no tag stands in front, the tag does
not stand in them.  There is no normal text then. -/
theorem parseComplete_calls (nonempty : calls ≠ []) (tagged : Bool) {text : Text}
    (written : text = (if tagged then llama.botToken else []) ++ joined fmt calls) :
    ((parseComplete serde fmt text).2 = calls.map (Call.toolCall fmt) ↔
      (∀ call ∈ calls, ';' ∉ call.text fmt) ∧
        (tagged = false → find llama.botToken (joined fmt calls) = none)) ∧
    ((parseComplete serde fmt text).2 = calls.map (Call.toolCall fmt) →
      (parseComplete serde fmt text).1 = []) := by
  have called : calls.map (Call.toolCall fmt) ≠ [] := by simpa using nonempty
  -- the content is the text of all calls
  have all (content : (extractContentAfterPythonTag text).or (if ['\x7b'].isPrefixOf (skipWhitespace text)
        then some ([], text) else none) = some ([], joined fmt calls)) :
      ((parseComplete serde fmt text).2 = calls.map (Call.toolCall fmt) ↔
        ∀ call ∈ calls, ';' ∉ call.text fmt) ∧
      ((parseComplete serde fmt text).2 = calls.map (Call.toolCall fmt) →
        (parseComplete serde fmt text).1 = []) := by
    obtain ⟨tools, normal⟩ := @parseComplete_of_content _ serde fmt _ _ _ content
    refine ⟨?_, fun same => normal (tools ▸ same ▸ called)⟩
    rw [tools, parseContent_eq nests reads nonempty, filterMap_joined nests reads nonempty]
    constructor
    · intro same
      have length := congrArg List.length same
      rw [length_map, length_map, length_filter_eq_length_iff] at length
      exact fun call known => of_decide_eq_true (length call known)
    · intro whole
      rw [filter_eq_self.mpr fun call known => decide_eq_true (whole call known)]
  cases tagged with
  | true =>
    have found : find llama.botToken text = some 0 := by
      rw [written]
      exact if_pos ( isPrefixOf_iff_prefix.mpr (prefix_append _ _))
    have parsed := all (by rw [extractContentAfterPythonTag, found, written]; simp)
    exact ⟨parsed.1.trans (and_iff_left fun off => by cases off).symm, parsed.2⟩
  | false =>
    obtain rfl : text = joined fmt calls := written
    cases found : find llama.botToken (joined fmt calls) with
    | none =>
      have opens : ['\x7b'].isPrefixOf (skipWhitespace (joined fmt calls)) = true := by
        obtain ⟨first, rest, rfl⟩ := exists_cons_of_ne_nil nonempty
        obtain ⟨inner, braces⟩ := @first.text_eq _ fmt
        have opening : isWhitespace '\x7b' = false := by decide
        cases rest <;> simp [joined, intercalate, braces, skipWhitespace, opening]
      have parsed := all (by simp only [extractContentAfterPythonTag, found, Option.map_none,
        Option.none_or, opens, if_true])
      exact ⟨parsed.1.trans (and_iff_left fun _ => rfl).symm, parsed.2⟩
    | some pos =>
      obtain ⟨pre, post, cut, size⟩ := find_eq_some found
      have content : extractContentAfterPythonTag (joined fmt calls) = some (pre, post) := by
        rw [extractContentAfterPythonTag, found, cut, ← size, Option.map_some, append_assoc, take_left,
          ← length_append, ← append_assoc, drop_left]
      have tools := (@parseComplete_of_content _ serde fmt _ _ _ (by rw [content, Option.some_or])).1
      have fewer := parts_tagged nests reads (cut.trans (append_assoc ..))
      have other : (parseComplete serde fmt (joined fmt calls)).2 ≠ calls.map (Call.toolCall fmt) := by
        intro same
        rw [← parseContent_eq nests reads nonempty, ← tools, same, length_map] at fewer
        exact fewer.false
      exact ⟨iff_of_false other fun holds => (by cases holds.2 rfl), fun same => absurd same other⟩

end

/-- A call of the tool f. -/
def callOf (parameter : String) : Call Empty := ⟨"f".toList, .string parameter.toList⟩

/-- A `serde_json` that knows these calls. -/
def serdeOf (calls : List (Call Empty)) : Serde Empty :=
  ⟨fun text => (calls.find? fun call => call.text nofun = text).map Call.value, fun _ => false⟩

private theorem nests_serdeOf {calls : List (Call Empty)} {s : Nat}
    (sizes : ∀ call ∈ calls, (call.text nofun).length = s) : Nests (serdeOf calls) := by
  have known {text : Text} {value : Value Empty} (read : (serdeOf calls).fromStr text = some value) :
      text.length = s := by
    obtain ⟨call, found, -⟩ := Option.map_eq_some_iff.mp read
    have same : call.text nofun = text := of_decide_eq_true (find?_some found :)
    rw [← same, sizes call (mem_of_find?_eq_some found)]
  intro pre part post whole value read inner _
  have trimmed : (trim part).length ≤ part.length := by
    rw [trim, length_reverse]
    refine (dropWhile_sublist _).length_le.trans ?_
    rw [length_reverse]
    exact (dropWhile_sublist _).length_le
  have outer := known read
  rw [known inner] at trimmed
  simp only [length_append] at outer
  have none : pre = [] ∧ post = [] := ⟨length_eq_zero_iff.mp (by omega), length_eq_zero_iff.mp (by omega)⟩
  exact .inl ⟨none.1, by simp [none.2]⟩

/-- Two calls behind the tag. -/
theorem two_calls_parsed : (parseComplete (serdeOf [callOf "a", callOf "b"]) nofun
      (llama.botToken ++ joined nofun [callOf "a", callOf "b"])).2 =
    [⟨"f".toList, "\"a\"".toList⟩, ⟨"f".toList, "\"b\"".toList⟩] := by
  have nests : Nests (serdeOf [callOf "a", callOf "b"]) := nests_serdeOf (s := 29) (by decide)
  have reads : ∀ call ∈ [callOf "a", callOf "b"],
      (serdeOf [callOf "a", callOf "b"]).fromStr (call.text nofun) = some call.value :=
    forall_mem_cons.mpr ⟨rfl, forall_mem_singleton.mpr rfl⟩
  exact (parseComplete_calls nests reads (cons_ne_nil _ _) true rfl).1.mpr ⟨by decide, fun off => by cases off⟩

/-- A semicolon in a string: neither half is JSON, and the call is lost. -/
theorem semicolon_drops_call : (parseComplete (serdeOf [callOf "a;b"]) nofun ((callOf "a;b").text nofun)).2 = [] := by
  decide

end ModelGateway.LlamaComplete
