import Mathlib

/-! The Harmony parser adapter (`grpc/harmony/parser.rs`): what the assistant wrote is sorted by recipient
and channel into reasoning, tool calls and final text. -/
namespace ModelGateway.Harmony
open List

abbrev Text := List Char

inductive Role where
  | user
  | assistant
  | system
  | developer
  | tool
  deriving DecidableEq

inductive Content where
  | text (written : Text)
  | other

def Content.text? : Content → Option Text
  | text written => some written
  | other => none

structure Message where
  role : Role
  channel : Option String
  recipient : Option Text
  content : List Content

structure ToolCall where
  name : Text
  arguments : Text

/-- The completed messages, and what is known of the current one; its content may be an error. -/
structure StreamableParser where
  messages : List Message
  currentChannel : Option String
  currentRecipient : Option Text
  currentContent : Option Text

structure Outputs where
  analysis : Option Text := none
  commentary : Option (List ToolCall) := none
  finalText : Text := []

structure HarmonyChannelOutput extends Outputs where
  finishReason : String
  reasoningTokenCount : Nat

/-- Where a message goes; what is written on the analysis channel replaces the reasoning so far. -/
inductive Lane where
  | skipped
  | call (function : Text)
  | reasoning (replaces : Bool)
  | final
  deriving DecidableEq

def Message.lane (msg : Message) : Lane :=
  if msg.role ≠ .assistant then .skipped
  else
    -- the recipient comes before the channel
    match msg.recipient.bind (·.dropPrefix? "functions.".toList) with
    | some function => .call function
    | none =>
      if msg.recipient.any fun recipient =>
          ["python", "browser", "container"].any (·.toList.isPrefixOf recipient) then .reasoning false
      else match msg.channel with
        | some "analysis" => .reasoning true
        | some "commentary" => .reasoning false
        | _ => .final

def Message.texts (msg : Message) : List Text := msg.content.filterMap Content.text?

def pushCall (function : Text) (calls : Option (List ToolCall)) (arguments : Text) :
    Option (List ToolCall) :=
  some (calls.getD [] ++ [⟨function, arguments⟩])

def appendAnalysis (analysis : Option Text) (text : Text) : Option Text :=
  some (analysis.elim text (· ++ '\n' :: text))

def parseMessage (outputs : Outputs) (msg : Message) : Outputs :=
  let text := msg.texts.flatten
  match msg.lane with
  | .skipped => outputs
  | .call function =>
    { outputs with commentary := msg.texts.foldl (pushCall function) outputs.commentary }
  | .reasoning replaces =>
    if text = [] then outputs
    else { outputs with analysis := if replaces then some text else appendAnalysis outputs.analysis text }
  | .final => { outputs with finalText := outputs.finalText ++ text }

def parseMessages (messages : List Message) : Outputs := messages.foldl parseMessage {}

def handleIncompleteContent (parser : StreamableParser) (outputs : Outputs) : Outputs :=
  match parser.currentContent with
  | none | some [] => outputs
  | some content =>
    match parser.currentChannel with
    | some "analysis" => { outputs with analysis := some content }
    | some "final" | none => { outputs with finalText := outputs.finalText ++ content }
    | some _ => outputs

/-- `finalize`, with the number of reasoning tokens that were counted. -/
def finalize (parser : StreamableParser) (reasoningTokenCount : Nat) (finishReason : String) :
    HarmonyChannelOutput :=
  let parsed := parseMessages parser.messages
  ⟨handleIncompleteContent parser parsed, if parsed.commentary.isSome then "tool_calls" else finishReason,
    reasoningTokenCount⟩

/-- One token of `parse_complete`; `process` is the step of the library's parser. -/
def feed (process : StreamableParser → Nat → Except String StreamableParser) :
    StreamableParser × Nat → Nat → Except String (StreamableParser × Nat)
  | (parser, count), tokenId =>
    match process parser tokenId with
    | .error error => .error ("Failed to process token " ++ toString tokenId ++ ": " ++ error)
    | .ok next => .ok (next,
      if next.currentChannel ∈ [some "analysis", some "commentary"] then count + 1 else count)

/-- `parse_complete` ends as `finalize` does; also returns the parser behind the tokens. -/
def parseComplete (process : StreamableParser → Nat → Except String StreamableParser)
    (parser : StreamableParser) (outputIds : List Nat) (finishReason : String) :
    Except String (StreamableParser × HarmonyChannelOutput) :=
  (outputIds.foldlM (feed process) (parser, 0)).map fun (parser, count) =>
    (parser, finalize parser count finishReason)

/-! ### What was written -/

/-- What a message adds to the reasoning, the calls and the final text. -/
structure Parts where
  reasons : List Text := []
  calls : List ToolCall := []
  final : Text := []

def reasoningChannels : List (Option String) := [some "analysis", some "commentary"]

/-- A message to a function is a call; any other belongs to its channel. -/
def Message.parts (msg : Message) : Parts :=
  if msg.role ≠ .assistant then {}
  else
    match msg.recipient.bind (·.dropPrefix? "functions.".toList) with
    | some function => { calls := msg.texts.map (⟨function, ·⟩) }
    | none =>
      if msg.channel ∈ reasoningChannels then { reasons := [msg.texts.flatten].filter (· ≠ []) }
      else { final := msg.texts.flatten }

/-- Texts one after another, each on a new line. -/
def joined : List Text → Option Text
  | [] => none
  | first :: rest => some (rest.foldl (· ++ '\n' :: ·) first)

/-- What there is of the unfinished message. -/
def unfinished (parser : StreamableParser) : Message :=
  ⟨.assistant, parser.currentChannel, parser.currentRecipient, [.text (parser.currentContent.getD [])]⟩

def pending (parser : StreamableParser) : List Message :=
  if parser.currentContent.getD [] = [] then [] else [unfinished parser]

def written (parser : StreamableParser) : List Message := parser.messages ++ pending parser

/-- Each text is in the outputs, where it belongs and in order. -/
structure Conserves (messages : List Message) (outputs : Outputs) : Prop where
  reasoning : outputs.analysis = joined (messages.flatMap (·.parts.reasons))
  calls : outputs.commentary.getD [] = messages.flatMap (·.parts.calls)
  final : outputs.finalText = messages.flatMap (·.parts.final)

/-- The reasoning of a finished message, and whether it replaces what came before. -/
def Message.reasoned (msg : Message) : List (Text × Bool) :=
  match msg.lane with
  | .reasoning replaces => [(msg.texts.flatten, replaces)].filter (·.1 ≠ [])
  | _ => []

/-- The unfinished message is reasoning by its channel alone, and always replaces. -/
def pendingReason (parser : StreamableParser) : List (Text × Bool) :=
  if parser.currentContent.getD [] ≠ [] ∧ parser.currentChannel = some "analysis"
  then [(parser.currentContent.getD [], true)] else []

def StreamableParser.reasoned (parser : StreamableParser) : List (Text × Bool) :=
  parser.messages.flatMap (·.reasoned) ++ pendingReason parser

/-- Nothing is unfinished, or what is not to a function and on the analysis or the final channel or on none. -/
def Placed (parser : StreamableParser) : Prop :=
  parser.currentContent.getD [] = [] ∨
    parser.currentRecipient.bind (·.dropPrefix? "functions.".toList) = none ∧
      parser.currentChannel ∈ [some "analysis", some "final", none]

/-- What goes to a built-in tool is on a channel of the reasoning. -/
def Message.Channelled (msg : Message) : Prop :=
  msg.lane = .reasoning false → msg.texts.flatten ≠ [] → msg.channel ∈ reasoningChannels

/-- The unfinished message is placed, what goes to a built-in tool is on a channel of the reasoning, and
only the first reasoning replaces. -/
structure Kept (parser : StreamableParser) : Prop where
  placed : Placed parser
  tools : ∀ msg ∈ parser.messages, msg.Channelled
  once : ∀ later ∈ parser.reasoned.tail, later.2 = false

variable {messages : List Message} {outputs : Outputs} {msg : Message} {parser : StreamableParser}

/-! ### What is kept of the reasoning -/

/-- The texts from the last one on that replaces. -/
def keptReasons (pieces : List (Text × Bool)) : List Text :=
  pieces.foldl (fun kept piece => if piece.2 then [piece.1] else kept ++ [piece.1]) []

theorem keptReasons_snoc (pieces : List (Text × Bool)) (piece : Text × Bool) :
    keptReasons (pieces ++ [piece]) = if piece.2 then [piece.1] else keptReasons pieces ++ [piece.1] := by
  rw [keptReasons, foldl_append]
  rfl

theorem keptReasons_suffix (pieces : List (Text × Bool)) : keptReasons pieces <:+ pieces.map Prod.fst := by
  induction pieces using reverseRecOn with
  | nil => exact suffix_rfl
  | append_singleton pieces piece ih =>
    rw [keptReasons_snoc, map_append]
    split
    · exact suffix_append _ _
    · exact suffix_append_self_iff.mpr ih

theorem keptReasons_eq_iff (pieces : List (Text × Bool)) :
    keptReasons pieces = pieces.map Prod.fst ↔ ∀ later ∈ pieces.tail, later.2 = false := by
  induction pieces using reverseRecOn with
  | nil => simp [keptReasons]
  | append_singleton pieces piece ih =>
    rw [keptReasons_snoc, map_append, map_singleton]
    cases pieces with
    | nil => simp [keptReasons]
    | cons first rest =>
      rw [tail_append_of_ne_nil (cons_ne_nil _ _), forall_mem_append, forall_mem_singleton, ← ih]
      cases piece.2 with
      | false => simp only [Bool.false_eq_true, if_false, append_left_inj, and_true]
      | true => simp

theorem joined_snoc (pieces : List Text) (text : Text) :
    joined (pieces ++ [text]) = appendAnalysis (joined pieces) text := by
  cases pieces <;> simp [joined, appendAnalysis]

theorem length_joined (pieces : List Text) :
    (joined pieces).elim 0 (·.length + 1) = (pieces.map (·.length + 1)).sum := by
  induction pieces using reverseRecOn with
  | nil => rfl
  | append_singleton pieces text ih =>
    rw [joined_snoc, map_append, sum_append, ← ih]
    cases joined pieces <;> simp [appendAnalysis]
    omega

theorem eq_of_joined {pieces part all : List Text} (suffix : pieces <:+ part) (front : part <+: all)
    (same : joined pieces = joined all) : pieces = part ∧ part = all := by
  obtain ⟨pre, rfl⟩ := suffix
  obtain ⟨post, rfl⟩ := front
  have lengths := congrArg (Option.elim · 0 (·.length + 1)) same
  simp only [length_joined, map_append, sum_append] at lengths
  have none (texts : List Text) (zero : (texts.map (·.length + 1)).sum = 0) : texts = [] := by
    cases texts with
    | nil => rfl
    | cons text rest => simp at zero
  rw [none pre (by omega), none post (by omega)]
  simp

/-! ### The outputs -/

/-- What the parser adds to the final text for a finished message. -/
def Message.finals (msg : Message) : Text := if msg.lane = .final then msg.texts.flatten else []

theorem foldl_pushCall (function : Text) (texts : List Text) (calls : Option (List ToolCall)) :
    (texts.foldl (pushCall function) calls).getD [] =
      calls.getD [] ++ texts.map fun arguments => ⟨function, arguments⟩ := by
  induction texts generalizing calls with
  | nil => simp
  | cons text rest ih => simp [ih, pushCall]

theorem parseMessages_snoc : parseMessages (messages ++ [msg]) = parseMessage (parseMessages messages) msg :=
  foldl_append

/-- A message on no channel of the reasoning is taken for reasoning if it goes to a built-in tool. -/
theorem Message.lane_cases (msg : Message) :
    (msg.lane = .skipped ∧ msg.parts = {}) ∨
    (∃ function, msg.lane = .call function ∧ msg.parts = { calls := msg.texts.map (⟨function, ·⟩) }) ∨
    (∃ replaces, msg.lane = .reasoning replaces ∧ msg.channel ∈ reasoningChannels ∧
      msg.parts = { reasons := [msg.texts.flatten].filter (· ≠ []) }) ∨
    ((msg.lane = .reasoning false ∨ msg.lane = .final) ∧ msg.channel ∉ reasoningChannels ∧
      msg.parts = { final := msg.texts.flatten }) := by
  rw [Message.parts, Message.lane]
  split
  · exact .inl ⟨rfl, rfl⟩
  · split
    · exact .inr (.inl ⟨_, rfl, rfl⟩)
    · refine .inr (.inr ?_)
      by_cases reasoning : msg.channel ∈ reasoningChannels
      · rw [if_pos reasoning]
        refine .inl ?_
        split_ifs
        · exact ⟨_, rfl, reasoning, rfl⟩
        · simp only [reasoningChannels, mem_cons, not_mem_nil, or_false] at reasoning
          rcases reasoning with known | known <;> rw [known] <;> exact ⟨_, rfl, by decide, rfl⟩
      · rw [if_neg reasoning]
        refine .inr ⟨?_, reasoning, rfl⟩
        split_ifs
        · exact .inl rfl
        · split
          · next known => exact absurd (by rw [known]; decide) reasoning
          · next known => exact absurd (by rw [known]; decide) reasoning
          · exact .inr rfl

theorem appendAnalysis_joined (pieces : List (Text × Bool)) (text : Text) (replaces : Bool) :
    joined (keptReasons (pieces ++ [(text, replaces)])) =
      if replaces then some text else appendAnalysis (joined (keptReasons pieces)) text := by
  rw [keptReasons_snoc]
  cases replaces with
  | false => exact joined_snoc _ _
  | true => rfl

/-- The calls are those of the messages; the reasoning and the final text go by the lanes. -/
theorem parseMessages_spec (messages : List Message) :
    (parseMessages messages).analysis = joined (keptReasons (messages.flatMap (·.reasoned))) ∧
      (parseMessages messages).commentary.getD [] = messages.flatMap (·.parts.calls) ∧
      (parseMessages messages).finalText = messages.flatMap (·.finals) := by
  induction messages using reverseRecOn with
  | nil => exact ⟨rfl, rfl, rfl⟩
  | append_singleton messages msg ih =>
    obtain ⟨analysis, calls, final⟩ := ih
    have called : msg.parts.calls = match msg.lane with
        | .call function => msg.texts.map (⟨function, ·⟩)
        | _ => [] := by
      rcases msg.lane_cases with ⟨lane, parts⟩ | ⟨_, lane, parts⟩ | ⟨_, lane, -, parts⟩ | ⟨lane | lane, -, parts⟩ <;>
        rw [lane, parts]
    simp only [parseMessages_snoc, flatMap_append, flatMap_singleton, called]
    rw [parseMessage, Message.reasoned, Message.finals]
    cases msg.lane with
    | skipped | final => simp [analysis, calls, final]
    | call function => simp [analysis, calls, final, foldl_pushCall]
    | reasoning replaces =>
      by_cases empty : msg.texts.flatten = []
      · simp [empty, analysis, calls, final]
      · simp only [empty, if_false, filter_cons, ne_eq, not_false_eq_true, decide_true, if_true, filter_nil,
          append_nil, appendAnalysis_joined, analysis]
        exact ⟨trivial, calls, by simpa using final⟩

/-- What the parser adds to the final text for the unfinished message. -/
def pendingFinal (parser : StreamableParser) : Text :=
  if parser.currentChannel ∈ [some "final", none] then parser.currentContent.getD [] else []

theorem finalize_spec (parser : StreamableParser) (count : Nat) (reason : String) :
    let outputs := (finalize parser count reason).toOutputs
    outputs.analysis = joined (keptReasons parser.reasoned) ∧
      outputs.commentary.getD [] = parser.messages.flatMap (·.parts.calls) ∧
      outputs.finalText = parser.messages.flatMap (·.finals) ++ pendingFinal parser := by
  obtain ⟨analysis, calls, final⟩ := parseMessages_spec parser.messages
  obtain ⟨messages, channel, recipient, content⟩ := parser
  simp only [finalize, handleIncompleteContent, StreamableParser.reasoned, pendingReason, pendingFinal]
  match content with
  | none | some [] => simp_all
  | some (first :: rest) =>
    simp only
    split
    · simp_all [appendAnalysis_joined]
    · simp_all
    · simp_all
    · simp_all

theorem unfinished_parts (nonempty : parser.currentContent.getD [] ≠ []) : (unfinished parser).parts =
    match parser.currentRecipient.bind (·.dropPrefix? "functions.".toList) with
    | some function => { calls := [⟨function, parser.currentContent.getD []⟩] }
    | none => if parser.currentChannel ∈ reasoningChannels then { reasons := [parser.currentContent.getD []] }
      else { final := parser.currentContent.getD [] } := by
  have texts : (unfinished parser).texts = [parser.currentContent.getD []] := rfl
  have kept : [parser.currentContent.getD []].filter (· ≠ []) = [parser.currentContent.getD []] := by simp [nonempty]
  rw [Message.parts, texts, flatten_singleton, kept]
  rfl

/-- Under the condition on it, the unfinished message is where it belongs. Otherwise it is a call, or the
parser places none of its text. -/
theorem pending_cases (parser : StreamableParser) :
    (Placed parser ∧ (pending parser).flatMap (·.parts.calls) = [] ∧
      (pending parser).flatMap (·.parts.final) = pendingFinal parser ∧
      (pending parser).flatMap (·.parts.reasons) = (pendingReason parser).map Prod.fst) ∨
    (¬ Placed parser ∧ ((pending parser).flatMap (·.parts.calls) ≠ [] ∨ pendingFinal parser = [] ∧
      pendingReason parser = [] ∧ ((pending parser).flatMap (·.parts.final) ≠ [] ∨
        (pending parser).flatMap (·.parts.reasons) ≠ []))) := by
  rw [Placed, pending, pendingFinal, pendingReason]
  by_cases empty : parser.currentContent.getD [] = []
  · generalize parser.currentRecipient.bind _ = function
    simp [empty]
  · rw [if_neg empty]
    have parts := unfinished_parts empty
    rw [flatMap_singleton, flatMap_singleton, flatMap_singleton, parts]
    clear parts
    generalize parser.currentRecipient.bind _ = function
    generalize parser.currentContent.getD [] = text at *
    generalize parser.currentChannel = channel
    cases function with
    | some function => simp [empty]
    | none =>
      by_cases analysis : channel = some "analysis"
      · simp [empty, analysis, reasoningChannels]
      by_cases commentary : channel = some "commentary"
      · simp [empty, commentary, reasoningChannels]
      by_cases final : channel ∈ [some "final", none]
      · simp_all [reasoningChannels]
      · simp_all [reasoningChannels]

theorem Message.channelled_cases (msg : Message) :
    (msg.Channelled ∧ msg.finals = msg.parts.final ∧ msg.reasoned.map Prod.fst = msg.parts.reasons) ∨
    (¬ msg.Channelled ∧ msg.finals.length < msg.parts.final.length) := by
  rw [Message.Channelled, Message.finals, Message.reasoned]
  rcases msg.lane_cases with ⟨lane, parts⟩ | ⟨_, lane, parts⟩ | ⟨_, lane, known, parts⟩ | ⟨lane | lane, other, parts⟩
  · simp [lane, parts]
  · simp [lane, parts]
  · by_cases empty : msg.texts.flatten = [] <;> simp [lane, parts, known, empty]
  · by_cases empty : msg.texts.flatten = []
    · simp [lane, parts, empty]
    · refine .inr ⟨fun channelled => other (channelled lane empty), ?_⟩
      rw [parts, lane]
      exact length_pos_iff.mpr empty
  · simp [lane, parts]

theorem length_finals_le (messages : List Message) :
    (messages.flatMap (·.finals)).length ≤ (messages.flatMap (·.parts.final)).length ∧
      ((messages.flatMap (·.finals)).length = (messages.flatMap (·.parts.final)).length →
        ∀ msg ∈ messages, msg.Channelled) := by
  induction messages with
  | nil => exact ⟨Nat.le_refl _, nofun⟩
  | cons msg rest ih =>
    obtain ⟨shorter, channelled⟩ := ih
    simp only [flatMap_cons, length_append, forall_mem_cons]
    rcases msg.channelled_cases with ⟨here, same, -⟩ | ⟨-, less⟩
    · rw [same]
      exact ⟨by omega, fun equal => ⟨here, channelled (by omega)⟩⟩
    · exact ⟨by omega, fun equal => by omega⟩

theorem conserves_finalize (parser : StreamableParser) (count : Nat) (reason : String) :
    Conserves (written parser) (finalize parser count reason).toOutputs ↔
      joined (keptReasons parser.reasoned) =
        joined (parser.messages.flatMap (·.parts.reasons) ++ (pending parser).flatMap (·.parts.reasons)) ∧
      (pending parser).flatMap (·.parts.calls) = [] ∧ parser.messages.flatMap (·.finals) ++ pendingFinal parser =
        parser.messages.flatMap (·.parts.final) ++ (pending parser).flatMap (·.parts.final) := by
  obtain ⟨analysis, calls, final⟩ := finalize_spec parser count reason
  constructor
  · rintro ⟨reasoning, called, text⟩
    rw [written, flatMap_append] at reasoning called text
    refine ⟨analysis ▸ reasoning, ?_, final ▸ text⟩
    simpa [calls] using called
  · rintro ⟨reasoning, called, text⟩
    refine ⟨?_, ?_, ?_⟩ <;> rw [written, flatMap_append]
    · rw [analysis, reasoning]
    · rw [calls, called, append_nil]
    · rw [final, text]

theorem flatMap_channelled {messages : List Message} (tools : ∀ msg ∈ messages, msg.Channelled) :
    messages.flatMap (·.finals) = messages.flatMap (·.parts.final) ∧
      messages.flatMap (·.parts.reasons) = (messages.flatMap (·.reasoned)).map Prod.fst := by
  have each (msg : Message) (mem : msg ∈ messages) := msg.channelled_cases.resolve_right
    fun misplaced => misplaced.1 (tools msg mem)
  rw [map_flatMap]
  exact ⟨flatMap_congr fun msg mem => (each msg mem).2.1,
    flatMap_congr fun msg mem => (each msg mem).2.2.symm⟩

/-- Everything is where it belongs exactly if it is kept. -/
theorem conserves_finalize_iff (parser : StreamableParser) (count : Nat) (reason : String) :
    Conserves (written parser) (finalize parser count reason).toOutputs ↔ Kept parser := by
  rw [conserves_finalize]
  constructor
  · rintro ⟨reasoning, called, text⟩
    obtain ⟨shorter, channelled⟩ := length_finals_le parser.messages
    have lengths := congrArg length text
    rw [length_append, length_append] at lengths
    rcases pending_cases parser with ⟨fits, -, finals, reasons⟩ | ⟨-, other | ⟨noFinal, noReason, some⟩⟩
    · rw [finals] at lengths
      have tools := channelled (by omega)
      rw [(flatMap_channelled tools).2, reasons, ← map_append] at reasoning
      have all := eq_of_joined (keptReasons_suffix _) prefix_rfl reasoning
      exact ⟨fits, tools, (keptReasons_eq_iff _).mp all.1⟩
    · exact absurd called other
    · rw [noFinal, length_nil] at lengths
      have tools := channelled (by omega)
      have none : (pending parser).flatMap (·.parts.final) = [] := length_eq_zero_iff.mp (by omega)
      rw [(flatMap_channelled tools).2, StreamableParser.reasoned, noReason, append_nil] at reasoning
      have all := (eq_of_joined (keptReasons_suffix _) (prefix_append _ _) reasoning).2
      exact absurd (self_eq_append_right.mp all) (some.resolve_left (not_not_intro none))
  · rintro ⟨fits, tools, once⟩
    rcases pending_cases parser with ⟨-, noCall, finals, reasons⟩ | ⟨other, -⟩
    · rw [(flatMap_channelled tools).1, (flatMap_channelled tools).2, finals, reasons, ← map_append]
      exact ⟨congrArg joined ((keptReasons_eq_iff _).mpr once), noCall, rfl⟩
    · exact absurd fits other

/-- Nothing the assistant wrote is lost or misplaced, by `finalize` and by every `parse_complete` that ends
in the parser's state, exactly if it is kept. -/
theorem written_text_conserved (parser : StreamableParser) :
    (∀ count reason, Conserves (written parser) (finalize parser count reason).toOutputs ↔ Kept parser) ∧
      ∀ process start outputIds reason output, parseComplete process start outputIds reason = .ok (parser, output) →
          (Conserves (written parser) output.toOutputs ↔ Kept parser) := by
  refine ⟨conserves_finalize_iff parser, fun process start outputIds reason output completed => ?_⟩
  unfold parseComplete at completed
  cases fed : outputIds.foldlM (feed process) (start, 0) with
  | error error =>
    rw [fed] at completed
    cases completed
  | ok last =>
    rw [fed] at completed
    cases completed
    exact conserves_finalize_iff _ _ _

/-- Reasoning, a call and the beginning of an answer to a named reader. -/
def answering : StreamableParser :=
  ⟨[⟨.assistant, some "analysis", none, [.text "add".toList]⟩,
    ⟨.assistant, some "analysis", some "functions.sum".toList, [.text "1,2".toList]⟩,
    ⟨.assistant, some "commentary", some "python".toList, [.text "1+2".toList]⟩], some "final", some "user".toList,
    some "thr".toList⟩

theorem answering_conserved : Conserves (written answering) (finalize answering 3 "stop").toOutputs := by
  refine ((written_text_conserved answering).1 3 "stop").mpr ⟨.inr ⟨by decide, by decide⟩, ?_, by decide⟩
  simp only [answering, forall_mem_cons, Message.Channelled]
  decide

/-- The second message on the analysis channel takes the place of the first. -/
theorem reasoning_replaced :
    let parser : StreamableParser := ⟨["one".toList, "two".toList].map fun text =>
      ⟨.assistant, some "analysis", none, [.text text]⟩, none, none, none⟩
    (finalize parser 2 "stop").analysis = some "two".toList ∧
      (written parser).flatMap (·.parts.reasons) = ["one".toList, "two".toList] := ⟨rfl, rfl⟩

end ModelGateway.Harmony
