/-
# The byte scanners of `mcp.rs`

The loops that walk a request body by position: `skip_ws`, `parse_string`
and `skip_value`. A position is an index into the body, as in the source; a
read past the end by `get` is the `None` that `?` returns, and a slice out
of range is a panic.

`skip_value` counts open brackets in a `usize`. What happens when the count
would pass 0 or `usize::MAX` depends on the build: with `overflow-checks` it
panics, without (the release profile) it wraps.

Key definitions: `skipWs`, `parseString`, `skipNested`, `skipValue`.
-/
import Statico.Lib.Bytes
import Statico.Lib.Scan

namespace Statico
namespace Mcp

/-- Whether arithmetic is compiled with overflow checks. -/
inductive Profile
  | checked
  | release
  deriving DecidableEq, Repr

namespace Profile

/-- `depth += 1`. -/
def incr : Profile → ℕ → Scan ℕ
  | checked, d => if d + 1 < 2 ^ 64 then .ok (d + 1) else .halt .addOverflow
  | release, d => .ok ((d + 1) % 2 ^ 64)

/-- `depth -= 1`. -/
def decr : Profile → ℕ → Scan ℕ
  | checked, d => if d = 0 then .halt .subOverflow else .ok (d - 1)
  | release, d => .ok ((d + (2 ^ 64 - 1)) % 2 ^ 64)

end Profile

/-- `*body.get(i)?` -/
def get (body : Bytes) (i : ℕ) : Scan UInt8 := .ofOption body[i]?

/-- `&body[s..e]` -/
def slice (body : Bytes) (s e : ℕ) : Scan Bytes :=
  if s ≤ e ∧ e ≤ body.length then .ok ((body.drop s).take (e - s)) else .halt .sliceRange

def isWs (b : UInt8) : Bool :=
  b = byte ' ' || b = byte '\t' || b = byte '\n' || b = byte '\r'

def skipWs (body : Bytes) (i : ℕ) : ℕ :=
  if h : i < body.length then
    if isWs body[i] then skipWs body (i + 1) else i
  else i
termination_by body.length - i

/-- The loop of `parse_string`: the position of the closing quote. -/
def closingQuote (body : Bytes) (i : ℕ) : Scan ℕ :=
  if h : i < body.length then
    if body[i] = byte '\\' then closingQuote body (i + 2) -- the escaped char, never a raw quote
    else if body[i] = byte '"' then .ok i
    else closingQuote body (i + 1)
  else .fail
termination_by body.length - i

/-- A JSON string starting at its opening quote: where its content starts and
ends, and the position after the closing quote. -/
def parseString (body : Bytes) (pos : ℕ) : Scan (ℕ × ℕ × ℕ) := do
  if (← get body pos) ≠ byte '"' then .fail
  else
    let start := pos + 1
    let i ← closingQuote body start
    return (start, i, i + 1)

/-- The bytes that end a number, `true`, `false` or `null`. -/
def isDelim (b : UInt8) : Bool :=
  b = byte ',' || b = byte '}' || b = byte ']' || isWs b

/-- Where the token at `i` ends. -/
def tokenEnd (body : Bytes) (i : ℕ) : ℕ :=
  if h : i < body.length then
    if isDelim body[i] then i else tokenEnd body (i + 1)
  else i
termination_by body.length - i

theorem lt_closingQuote {body : Bytes} {i j : ℕ} (h : closingQuote body i = .ok j) : i ≤ j := by
  fun_induction closingQuote body i with
  | case1 i hi hc ih => have := ih h; omega
  | case2 i hi hc hq => cases h; exact le_rfl
  | case3 i hi hc hq ih => have := ih h; omega
  | case4 i hi => cases h

theorem lt_parseString {body : Bytes} {i s e n : ℕ} (h : parseString body i = .ok (s, e, n)) :
    i < n := by
  unfold parseString at h
  obtain ⟨c, hc, h⟩ := Scan.bind_eq_ok.mp h
  split_ifs at h with hq
  obtain ⟨j, hj, h⟩ := Scan.bind_eq_ok.mp h
  cases h
  have := lt_closingQuote hj
  omega

/-- The loop of `skip_value` inside an object or array that closes with
`close`, `depth` brackets deep. -/
def skipNested (p : Profile) (body : Bytes) (close : UInt8) (i depth : ℕ) : Scan ℕ :=
  if h : i < body.length then
    let c := body[i]
    if c = byte '"' then
      match hs : parseString body i with
      | .ok (_, _, next) => skipNested p body close next depth
      | .fail => .fail
      | .halt w => .halt w
    else if c = byte '{' ∨ c = byte '[' then do
      -- three arms of the source, all of them this one
      let depth ← p.incr depth
      skipNested p body close (i + 1) depth
    else if c = byte '}' ∨ c = byte ']' then
      if c = close then do
        let depth ← p.decr depth
        if depth = 0 then return i + 1 else skipNested p body close (i + 1) depth
      else do
        let depth ← p.decr depth
        skipNested p body close (i + 1) depth
    else skipNested p body close (i + 1) depth
  else .fail
termination_by body.length - i
decreasing_by
  · have := lt_parseString hs; omega
  all_goals omega

/-- Skips any JSON value starting at `pos`: the position right after it. -/
def skipValue (p : Profile) (body : Bytes) (pos : ℕ) : Scan ℕ := do
  let i := skipWs body pos
  let c ← get body i
  if c = byte '"' then
    let (_, _, next) ← parseString body i
    return next
  else if c = byte '{' ∨ c = byte '[' then
    let close := if c = byte '{' then byte '}' else byte ']'
    skipNested p body close (i + 1) 1
  else
    return tokenEnd body i

end Mcp
end Statico
