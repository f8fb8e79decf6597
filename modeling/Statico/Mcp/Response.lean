/-
# The responses as JSON trees

Every response the dispatcher builds is the compact text of an object with
the members `jsonrpc`, `id` and `result` or `error`. The trees are written
for strings of any kind of character (`Plain`), so that the same tree says what the
response is in bytes and what it denotes.

`replyText` is the text of such an object around the text of the id and of
the last member. The builders of `mcp.rs` produce it (`buildWithId_eq`,
`buildTextResult_eq`, …), the tree renders to it (`render_reply`) and the
grammar derives it from the tree (`spells_reply`).

Key definitions: `Plain`, `reply`, `resultReply`, `errorReply`, `textResult`.
Key theorems: `spells_reply`, `render_reply`.
-/
import Statico.Lib.EventStream
import Statico.Lib.Json.Grammar
import Statico.Mcp.Dispatch

namespace Statico
namespace Mcp

open Json

/-- A kind of character that has those of ASCII. -/
class Plain (β : Type) where
  ofBytes : Bytes → List β

instance : Plain UInt8 := ⟨fun b => b⟩
instance : Plain ℕ := ⟨List.map UInt8.toNat⟩

section Trees

variable {β : Type} [Plain β]

abbrev plain (s : String) : List β := Plain.ofBytes (ascii s)

/-- A response with the last member `k`. -/
def reply (k : String) (id v : Value (List β)) : Value (List β) :=
  .obj [(plain "jsonrpc", .str (plain "2.0")), (plain "id", id), (plain k, v)]

def resultReply (id result : Value (List β)) : Value (List β) := reply "result" id result

def errorValue (code message : String) : Value (List β) :=
  .obj [(plain "code", .lit (ascii code)), (plain "message", .str (plain message))]

def errorReply (id : Value (List β)) (code message : String) : Value (List β) :=
  reply "error" id (errorValue code message)

/-- The result of a tool: one text. -/
def textResult (text : List β) (isError : String) : Value (List β) :=
  .obj [(plain "content", .arr [.obj [(plain "type", .str (plain "text")), (plain "text", .str text)]]),
    (plain "isError", .lit (ascii isError))]

def initializeResult (version : List β) : Value (List β) :=
  .obj [(plain "protocolVersion", .str version),
    (plain "capabilities", .obj [(plain "tools", .obj [(plain "listChanged", .lit (ascii "false"))])]),
    (plain "serverInfo", .obj [(plain "name", .str (Plain.ofBytes serverName)),
      (plain "version", .str (Plain.ofBytes cargoPkgVersion))]),
    (plain "instructions", .str (plain "Minimal everything mock for benchmarking"))]

/-- The entry of a tool in `tools/list`. -/
def toolEntry (name description : String) (schema : List (List β × Value (List β))) : Value (List β) :=
  .obj [(plain "name", .str (plain name)), (plain "description", .str (plain description)),
    (plain "inputSchema", .obj ((plain "type", .str (plain "object")) :: schema))]

def toolsList : Value (List β) :=
  .obj [(plain "tools", .arr [
    toolEntry "answer" "Always answers 42" [(plain "properties", .obj [])],
    toolEntry "echo" "Echoes back the input text"
      [(plain "properties", .obj [(plain "text", .obj [(plain "type", .str (plain "string")),
        (plain "description", .str (plain "Text to echo"))])]),
      (plain "required", .arr [.str (plain "text")])]])]

end Trees

/-! ### Their texts -/

def replyText (k : String) (id t : Bytes) : Bytes :=
  objectText (joinMembers [(ascii "jsonrpc", quoted (ascii "2.0")), (ascii "id", id), (ascii k, t)])

theorem render_reply (k : String) (id v : Value Bytes) :
    (reply k id v).render = replyText k id.render v.render := rfl

/-- The text around the id and the value. -/
theorem replyText_eq (k : String) (id t : Bytes) : replyText k id t =
    rpcPrefix ++ (id ++ (byte ',' :: (quoted (ascii k) ++ byte ':' :: (t ++ [byte '}'])))) := by
  simp only [replyText, joinMembers, memberText, objectText, Gaps.none, List.nil_append,
    List.append_assoc, List.cons_append, List.append_nil]
  rfl

/-- A builder that splices a fragment after the id. -/
theorem buildFramed_eq {k : String} {fragment t : Bytes}
    (h : fragment = byte ',' :: (quoted (ascii k) ++ byte ':' :: (t ++ [byte '}']))) (id : Bytes) :
    buildFramedWithId [] id fragment [] = replyText k id t := by
  rw [buildFramedWithId, List.append_nil, List.nil_append, replyText_eq, h, List.append_assoc]

theorem ping_eq (id : Bytes) :
    buildWithId id pingResult = replyText "result" id (Value.obj []).render :=
  buildFramed_eq (by decide +kernel) id

theorem toolsList_eq (id : Bytes) :
    buildWithId id toolsListResult = replyText "result" id toolsList.render :=
  buildFramed_eq (by decide +kernel) id

theorem answer_eq (id : Bytes) : buildFramedWithId [] id toolsCallAnswerResult [] =
    replyText "result" id (textResult (ascii "42") "false").render :=
  buildFramed_eq (by decide +kernel) id

/-- The error builder has a prefix of its own, which is the same. -/
theorem buildError_eq {suffix t : Bytes}
    (h : suffix = byte ',' :: (quoted (ascii "error") ++ byte ':' :: (t ++ [byte '}']))) (id : Bytes) :
    buildErrorWithId id suffix = replyText "error" id t := by
  rw [← buildFramed_eq h, buildFramedWithId, List.append_nil, List.nil_append]
  rfl

theorem errInvalid_eq (id : Bytes) : buildErrorWithId id errInvalidSuffix =
    replyText "error" id (errorValue "-32600" "Invalid Request").render :=
  buildError_eq (by decide +kernel) id

theorem errInvalidParams_eq (id : Bytes) : buildErrorWithId id errInvalidParamsSuffix =
    replyText "error" id (errorValue "-32602" "Invalid params").render :=
  buildError_eq (by decide +kernel) id

theorem errMethod_eq (id : Bytes) : buildErrorWithId id errMethodSuffix =
    replyText "error" id (errorValue "-32601" "Method not found").render :=
  buildError_eq (by decide +kernel) id

theorem text_eq (id text : Bytes) : buildTextResult [] id text [] =
    replyText "result" id (textResult text "false").render := by
  have h : toolsCallTextPrefix ++ text ++ toolsCallTextSuffix = byte ',' :: (quoted (ascii "result") ++
      byte ':' :: ((textResult text "false").render ++ [byte '}'])) := by
    simp only [List.append_assoc, Value.render, textResult, plain, Plain.ofBytes, Value.renderMembers,
      Value.renderElems, objectText, memberText, arrayText, quoted, Gaps.none, List.nil_append,
      List.cons_append, List.append_nil]
    rfl
  rw [← buildFramed_eq h, buildTextResult, buildFramedWithId]
  simp only [List.append_assoc, List.nil_append]

theorem unknown_eq (id name : Bytes) : buildUnknownTool [] id name [] =
    replyText "result" id (textResult (ascii "unknown tool " ++ name) "true").render := by
  have h : toolsCallUnknownPrefix ++ name ++ toolsCallUnknownSuffix =
      byte ',' :: (quoted (ascii "result") ++
        byte ':' :: ((textResult (ascii "unknown tool " ++ name) "true").render ++ [byte '}'])) := by
    simp only [List.append_assoc, Value.render, textResult, plain, Plain.ofBytes, Value.renderMembers,
      Value.renderElems, objectText, memberText, arrayText, quoted, Gaps.none, List.nil_append,
      List.cons_append, List.append_nil]
    rfl
  rw [← buildFramed_eq h, buildUnknownTool, buildFramedWithId]
  simp only [List.append_assoc, List.nil_append]

set_option maxRecDepth 2000 in
theorem initialize_eq (id version : Bytes) : buildInitialize id version =
    replyText "result" id (initializeResult version).render := by
  have h : initResultPrefix ++ (version ++ (initResultMid ++ (serverName ++ (initResultMid2 ++
      (cargoPkgVersion ++ initResultSuffix))))) = byte ',' :: (quoted (ascii "result") ++
        byte ':' :: ((initializeResult version).render ++ [byte '}'])) := by
    simp only [List.append_assoc, Value.render, initializeResult, plain, Plain.ofBytes,
      Value.renderMembers, objectText, memberText, quoted, Gaps.none, List.nil_append,
      List.cons_append, List.append_nil]
    rfl
  rw [← buildFramed_eq h, buildInitialize, buildFramedWithId]
  simp only [List.append_assoc, List.nil_append, List.append_nil]

/-! ### Their derivations -/

/-- A lexicon with the plain ASCII strings and the literals of JSON. -/
structure Ascii {β : Type} [Plain β] (L : Lexicon (List β)) : Prop where
  string : ∀ {b : Bytes}, b.all isPlain = true → L.string (Plain.ofBytes b) b
  literal : ∀ {t : Bytes}, Literal t → L.literal t

theorem rfc_ascii : Ascii rfc := ⟨fun h => ⟨rfl, _, chars_plain h⟩, id⟩
theorem decoded_ascii : Ascii decoded := ⟨chars_plain, id⟩
theorem loose_ascii : Ascii loose := ⟨fun h => ⟨rfl, (chars_plain h).closed⟩, Literal.token⟩

section Spelled

variable {β : Type} [Plain β] {L : Lexicon (List β)} (hA : Ascii L)
include hA

theorem written_plain (k : String) {v : Value (List β)} {t : Bytes} (h : Spells L (.value v) t)
    (hk : (ascii k).all isPlain = true := by decide) : Written L (plain k, v) (ascii k, t) :=
  ⟨hA.string hk, h⟩

theorem spells_plain (s : String) (hs : (ascii s).all isPlain = true := by decide) :
    Spells L (.value (.str (plain s))) (quoted (ascii s)) := .str (hA.string hs)

theorem spells_reply (k : String) {i v : Value (List β)} {u t : Bytes} (hi : Spells L (.value i) u)
    (hv : Spells L (.value v) t) (hk : (ascii k).all isPlain = true := by decide) :
    Spells L (.value (reply k i v)) (replyText k u t) :=
  spells_object (.cons (written_plain hA "jsonrpc" (spells_plain hA "2.0"))
    (.cons (written_plain hA "id" hi) (.cons (written_plain hA k hv hk) .nil)))

theorem spells_text {text : List β} {r : Bytes} (ht : L.string text r) {isError : String}
    (he : Literal (ascii isError)) :
    Spells L (.value (textResult text isError)) (textResult r isError).render :=
  spells_object (.cons (written_plain hA "content" (spells_array (.cons (spells_object
      (.cons (written_plain hA "type" (spells_plain hA "text"))
        (.cons (written_plain hA "text" (.str ht)) .nil))) .nil)))
    (.cons (written_plain hA "isError" (.lit (hA.literal he))) .nil))

theorem spells_initialized {version : List β} {r : Bytes} (hv : L.string version r) :
    Spells L (.value (initializeResult version)) (initializeResult r).render :=
  spells_object (.cons (written_plain hA "protocolVersion" (.str hv))
    (.cons (written_plain hA "capabilities" (spells_object (.cons (written_plain hA "tools"
        (spells_object (.cons (written_plain hA "listChanged"
          (.lit (hA.literal (Or.inr (Or.inr (Or.inl rfl)))))) .nil))) .nil)))
    (.cons (written_plain hA "serverInfo" (spells_object
        (.cons (written_plain hA "name" (spells_plain hA "statico-everything"))
        (.cons (written_plain hA "version" (spells_plain hA "0.21.1")) .nil))))
    (.cons (written_plain hA "instructions" (spells_plain hA "Minimal everything mock for benchmarking"))
      .nil))))

theorem spells_toolEntry (name description : String) {schema : List (List β × Value (List β))}
    {kts : List (Bytes × Bytes)} (hs : List.Forall₂ (Written L) schema kts)
    (hn : (ascii name).all isPlain = true := by decide)
    (hd : (ascii description).all isPlain = true := by decide) :
    Spells L (.value (toolEntry name description schema)) (objectText (joinMembers
      [(ascii "name", quoted (ascii name)), (ascii "description", quoted (ascii description)),
        (ascii "inputSchema", objectText (joinMembers ((ascii "type", quoted (ascii "object")) :: kts)))])) :=
  spells_object (.cons (written_plain hA "name" (spells_plain hA name hn))
    (.cons (written_plain hA "description" (spells_plain hA description hd))
    (.cons (written_plain hA "inputSchema" (spells_object
      (.cons (written_plain hA "type" (spells_plain hA "object")) hs))) .nil)))

theorem spells_toolsList : Spells L (.value (toolsList : Value (List β))) toolsList.render :=
  have answer := spells_toolEntry hA "answer" "Always answers 42"
    (.cons (written_plain hA "properties" (spells_object .nil)) .nil)
  have echo := spells_toolEntry hA "echo" "Echoes back the input text"
    (.cons (written_plain hA "properties" (spells_object (.cons (written_plain hA "text"
        (spells_object (.cons (written_plain hA "type" (spells_plain hA "string"))
          (.cons (written_plain hA "description" (spells_plain hA "Text to echo")) .nil)))) .nil)))
      (.cons (written_plain hA "required" (spells_array (.cons (spells_plain hA "text") .nil))) .nil))
  spells_object (.cons (written_plain hA "tools" (spells_array (.cons answer (.cons echo .nil)))) .nil)

theorem spells_error {code message : String} (hc : Literal (ascii code))
    (hm : (ascii message).all isPlain = true := by decide) :
    Spells L (.value (errorValue code message : Value (List β))) (errorValue code message : Value Bytes).render :=
  spells_object (.cons (written_plain hA "code" (.lit (hA.literal hc)))
    (.cons (written_plain hA "message" (spells_plain hA message hm)) .nil))

end Spelled

/-! ### As an event -/

/-- The answer to a `tools/call` as an event is the frame of the answer. -/
theorem handleToolsCall_sse (p : Profile) (id : Bytes) (paramsRaw : Option Bytes) :
    handleToolsCall p id paramsRaw true =
      EventStream.frame <$> handleToolsCall p id paramsRaw false := by
  unfold handleToolsCall
  simp only [if_true, Bool.false_eq_true, if_false, map_bind]
  refine congrArg _ (funext fun params => congrArg _ (funext fun x => congrArg _ (funext fun name => ?_)))
  by_cases h1 : name = ascii "answer"
  · simp only [if_pos h1, Scan.pure_def, Scan.map_ok, buildFramedWithId, EventStream.frame,
      List.append_assoc,
      List.nil_append, List.append_nil]
    rfl
  · simp only [if_neg h1]
    by_cases h2 : name = ascii "echo"
    · simp only [if_pos h2, map_bind]
      refine congrArg _ (funext fun a => congrArg _ (funext fun t => congrArg _ (funext fun text => ?_)))
      simp only [Scan.pure_def, Scan.map_ok, buildTextResult, EventStream.frame, List.append_assoc,
        List.nil_append, List.append_nil]
      rfl
    · simp only [if_neg h2, Scan.pure_def, Scan.map_ok, buildUnknownTool, EventStream.frame, List.append_assoc,
        List.nil_append, List.append_nil]
      rfl

theorem errParse_eq : errParse = (errorReply (.lit (ascii "null")) "-32700" "Parse error").render := by
  decide +kernel

end Mcp
end Statico
