/-
# The object scanners of `mcp.rs`

`parse_rpc`, `find_protocol_version`, `find_raw_value` and `find_call_target`
each walk the members of one object with the same loop: whitespace, a key, a
colon, whitespace, the value, then a comma or the closing brace. `scanObject`
is that loop; the four differ in what they do at a member (`member`) and at
the end of the object (`close`).

Key definitions: `scanObject`, `parseRpc`, `findProtocolVersion`,
`findRawValue`, `stringInner`, `findCallTarget`.
-/
import Statico.Mcp.Scanner

namespace Statico
namespace Mcp

section Object

variable {σ α : Type}

/-- One turn of the loop: the state and the position of the next key. -/
def objectStep (body : Bytes) (member : σ → Bytes → ℕ → Scan (Step (σ × ℕ) α)) (close : σ → Scan α)
    (s : σ × ℕ) : Scan (Step (σ × ℕ) α) := do
  let (st, i) := s
  let i := skipWs body i
  if (← get body i) = byte '}' then
    return .done (← close st)
  else
    let (ks, ke, next) ← parseString body i
    let key ← slice body ks ke
    let i := skipWs body next
    if (← get body i) ≠ byte ':' then .fail
    else
      let i := skipWs body (i + 1)
      match ← member st key i with
      | .done a => return .done a
      | .next (st, i) =>
        let i := skipWs body i
        let c ← get body i
        if c = byte ',' then return .next (st, i + 1)
        else if c = byte '}' then return .done (← close st)
        else .fail

/-- The members of the object `body` starts with, from the state `st`. A turn
moves on by a byte at least, so `body.length + 1` turns are enough. -/
def scanObject (body : Bytes) (member : σ → Bytes → ℕ → Scan (Step (σ × ℕ) α)) (close : σ → Scan α)
    (st : σ) : Scan α := do
  let i := skipWs body 0
  if (← get body i) ≠ byte '{' then .fail
  else loop (objectStep body member close) (body.length + 1) (st, i + 1)

end Object

structure Rpc where
  method : Option Bytes
  idRaw : Option Bytes
  paramsRaw : Option Bytes
  deriving DecidableEq, Repr

namespace Rpc

def empty : Rpc := ⟨none, none, none⟩

end Rpc

/-- What `parse_rpc` does at a top-level member. -/
def rpcMember (p : Profile) (body : Bytes) (rpc : Rpc) (key : Bytes) (i : ℕ) :
    Scan (Step (Rpc × ℕ) Rpc) := do
  if key = ascii "method" then
    let (ms, me, next) ← parseString body i
    return .next ({ rpc with method := some (← slice body ms me) }, next)
  else if key = ascii "id" then
    if (← get body i) = byte '"' then
      let (_, _, next) ← parseString body i
      return .next ({ rpc with idRaw := some (← slice body i next) }, next) -- keep the quotes
    else
      let start := i
      let i := tokenEnd body i
      if start = i then .fail
      else return .next ({ rpc with idRaw := some (← slice body start i) }, i)
  else if key = ascii "params" then
    let start := i
    let i ← skipValue p body i
    return .next ({ rpc with paramsRaw := some (← slice body start i) }, i)
  else
    let i ← skipValue p body i
    return .next (rpc, i)

/-- Scans the top-level object of a request. -/
def parseRpc (p : Profile) (body : Bytes) : Scan Rpc :=
  scanObject body (rpcMember p body) .ok Rpc.empty

def protocolVersionMember (p : Profile) (params : Bytes) (_ : Unit) (key : Bytes) (i : ℕ) :
    Scan (Step (Unit × ℕ) Bytes) := do
  if key = ascii "protocolVersion" then
    let (vs, ve, _) ← parseString params i
    return .done (← slice params vs ve)
  else
    let i ← skipValue p params i
    return .next ((), i)

/-- The string `protocolVersion` among the top-level members of `params`. -/
def findProtocolVersion (p : Profile) (params : Bytes) : Scan Bytes :=
  scanObject params (protocolVersionMember p params) (fun _ => .fail) ()

def rawValueMember (p : Profile) (obj wanted : Bytes) (_ : Unit) (key : Bytes) (i : ℕ) :
    Scan (Step (Unit × ℕ) Bytes) := do
  let start := i
  let i ← skipValue p obj i
  if key = wanted then return .done (← slice obj start i)
  else return .next ((), i)

/-- The raw value of the top-level member `wanted` of `obj`. -/
def findRawValue (p : Profile) (obj wanted : Bytes) : Scan Bytes :=
  scanObject obj (rawValueMember p obj wanted) (fun _ => .fail) ()

/-- A raw JSON string without its quotes. -/
def stringInner (raw : Bytes) : Scan Bytes :=
  if 2 ≤ raw.length ∧ raw.head? = some (byte '"') ∧ raw.getLast? = some (byte '"') then
    slice raw 1 (raw.length - 1)
  else .fail

def callTargetMember (p : Profile) (params : Bytes) (st : Option Bytes × Option Bytes) (key : Bytes)
    (i : ℕ) : Scan (Step ((Option Bytes × Option Bytes) × ℕ) (Bytes × Option Bytes)) := do
  let (name, arguments) := st
  let start := i
  let i ← skipValue p params i
  if key = ascii "name" then return .next ((some (← slice params start i), arguments), i)
  else if key = ascii "arguments" then return .next ((name, some (← slice params start i)), i)
  else return .next ((name, arguments), i)

/-- The raw `name` and the raw `arguments` of a `tools/call`. -/
def findCallTarget (p : Profile) (params : Bytes) : Scan (Bytes × Option Bytes) :=
  scanObject params (callTargetMember p params)
    (fun (name, arguments) => do return (← Scan.ofOption name, arguments)) (none, none)

end Mcp
end Statico
