import Mylib.Spec.Base.StringUtil
import Mylib.Spec.Protocol.HttpPacket

/-!
# `Mylib.Spec.Http.HeaderFunction`: the headers of a response

`HeaderFunction` of `public/http/http_method.cc`, which the library calls with every line of
the head of a response. A pointer into the line is the text from there to the terminator.

`sscanf` reads its numbers as `strtoll` does, and cuts them to an `int`.
-/

set_option autoImplicit false

namespace Mylib.Spec.Http

open Mylib.Lib
open Mylib.Spec.Base.StringUtil (text isSpace strtoll)
open Mylib.Spec.Protocol (Str int32)
open Mylib.Spec.Protocol.HttpPacket (mapKey)

/-- The members of `CurlContent` that belong to the head. -/
structure CurlContent where
  headers : List (List Nat × List Str)
  code : Int
  subversion : Int
  deriving DecidableEq, Repr

/-- `HTTP/1.`. -/
def httpPrefix : Str := text ['H', 'T', 'T', 'P', '/', '1', '.']

/-- `sscanf(p, "HTTP/1.%d %d", &subversion_, &code_)`. An end of the text in front of the first
number counts as no conversion, too. -/
def sscanf (p : Str) (content : CurlContent) : Nat × CurlContent :=
  if httpPrefix.isPrefixOf p then
    let first := strtoll (p.drop 7)
    if first.endptr = p.drop 7 then (0, content)
    else
      let content := { content with subversion := int32 first.value.toInt }
      let rest := first.endptr.dropWhile isSpace
      let second := strtoll rest
      if second.endptr = rest then (1, content)
      else (2, { content with code := int32 second.value.toInt })
  else (0, content)

/-- `while (*p && isspace(*p)) ++p`. -/
def skipSpace (p : Str) : Str := p.dropWhile isSpace

/-- `*p`, with the terminator behind the text. -/
def charAt (p : Str) (i : Nat) : UInt8 := p.getD i 0

/-- `while ((end > start) && isspace(*end)) end--`, with `end` the offset from `start`. -/
def trimEnd (start : Str) : (stop : Nat) → Nat
  | 0 => 0
  | stop + 1 => if isSpace (charAt start (stop + 1)) then trimEnd start stop else stop + 1

/-- The end of the line: its first `\r`, else its first `\n`, else the terminator. -/
def lineEnd (p : Str) : Nat :=
  match p.idxOf? 13 with
  | some i => i
  | none =>
    match p.idxOf? 10 with
    | some i => i
    | none => p.length

/-- The update of the map. For a name that is there, the value is put at the end of a copy of
the list. -/
def addHeader (name value : Str) (headers : List (List Nat × List Str)) :
    List (List Nat × List Str) :=
  match OrderedMap.find (mapKey name) headers with
  | some _ => headers
  | none => OrderedMap.set (mapKey name) [value] headers

/-- `size * nmemb`. -/
def fullSize (size nmemb : Nat) : Nat := size * nmemb % 2 ^ 64

/-- `HeaderFunction` on the line at `ptr`: the result and `content` afterwards. -/
def headerFunction (ptr : Str) (size nmemb : Nat) (content : CurlContent) : Nat × CurlContent :=
  if content.code = 0 then
    let scan := sscanf (skipSpace ptr) content
    -- The result `-1` is the largest `size_t`.
    if scan.1 ≠ 2 then (2 ^ 64 - 1, scan.2) else (fullSize size nmemb, scan.2)
  else
    let p := skipSpace ptr
    if p = [] then (ptr.length - p.length, content)
    else
      let start := p
      let p := start.dropWhile (· ≠ 58)
      if p = [] then (ptr.length - p.length, content)
      else
        -- The character at `end` is the colon, so the name is not trimmed.
        let name := start.take (trimEnd start (start.length - p.length))
        let p := skipSpace p.tail
        if p = [] then (ptr.length - p.length, content)
        else
          let value := (p ++ [0]).take (trimEnd p (lineEnd p) + 1)
          (fullSize size nmemb, { content with headers := addHeader name value content.headers })

end Mylib.Spec.Http
