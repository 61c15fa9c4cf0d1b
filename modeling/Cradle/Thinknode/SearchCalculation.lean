import Cradle.Lib.DepthFirst
import Cradle.Lib.Mirror
import Cradle.Lib.Occurrence
import Cradle.Thinknode.CalcRequest

/-!
# Searching a calculation

`search_calculation` walks through the calculations that a calculation refers to and notes for
each of them whether it is an application of a function with a name that contains the search
string.  The server is outside the source: `retrieve` is what it answers for an ID.

An HTTP error other than 404 is caught and not thrown again.  The request is then as it was
declared: no content, and a tag that was never set, given by `staleTag`.
-/

namespace Cradle.Thinknode

/-- `thinknode_service_id`. -/
inductive ThinknodeServiceId
  | iam | apm | iss | calc | cas | rks | immutable
  deriving DecidableEq, Repr

/-- What `retrieve_calculation_request` throws. -/
inductive RetrievalError
  | badHttpStatusCode (statusCode : ℤ)
  | other (what : Bytes)
  deriving DecidableEq, Repr

/-- The exceptions of a search.  `outOfFuel` is no exception of the source. -/
inductive SearchException
  | retrieval (e : RetrievalError)
  | internalCheckFailed (internalErrorMessage : String)
  | invalidEnumValue
  | badAnyCast
  | outOfRange
  | invalidArgument
  | outOfFuel
  deriving DecidableEq, Repr

/-! ## Services -/

/-- The value of a hexadecimal digit. -/
def hexDigit (c : UInt8) : Option ℕ :=
  if 0x30 ≤ c ∧ c ≤ 0x39 then some (c.toNat - 0x30)
  else if 0x41 ≤ c ∧ c ≤ 0x46 then some (c.toNat - 0x41 + 10)
  else if 0x61 ≤ c ∧ c ≤ 0x66 then some (c.toNat - 0x61 + 10)
  else none

/-- `std::isspace`. -/
def isSpace (c : UInt8) : Bool := c = 0x20 ∨ (0x09 ≤ c ∧ c ≤ 0x0d)

/-- `std::stoul` to the base 16 of at most two characters, which cannot hold a digit after a
prefix `0x`.  What follows the digits is not looked at. -/
def stoul16 (s : Bytes) : Except SearchException ℕ :=
  let s := s.dropWhile isSpace
  let negative := s.head? = some 0x2d
  let s := if negative ∨ s.head? = some 0x2b then s.tail else s
  let digits := (s.takeWhile fun c => (hexDigit c).isSome).filterMap hexDigit
  if digits = [] then .error .invalidArgument
  else
    let n := digits.foldl (fun n d => 16 * n + d) 0
    .ok (if negative then (2 ^ 64 - n) % 2 ^ 64 else n)

/-- `get_thinknode_service_id`. -/
def getThinknodeServiceId (thinknodeId : Bytes) : Except SearchException ThinknodeServiceId :=
  if thinknodeId.length < 9 then .error .outOfRange
  else
    match stoul16 ((thinknodeId.drop 9).take 2) with
    | .error e => .error e
    | .ok n =>
        match n / 4 with
        | 1 => .ok .iam
        | 2 => .ok .apm
        | 3 => .ok .iss
        | 4 => .ok .calc
        | 5 => .ok .cas
        | 6 => .ok .rks
        | 7 => .ok .immutable
        | _ => .error (.internalCheckFailed "unrecognized Thinknode service ID")

/-! ## The search -/

/-- `thinknode_calc_request_tag`. -/
inductive CalcRequestTag
  | reference | value | function | array | item | object | property | let | variable | «meta» | cast
  deriving DecidableEq, Repr

/-- `is_matching`, and the IDs that requests were retrieved for. -/
structure SearchState where
  isMatching : List (Bytes × Bool) := []
  retrieved : List Bytes := []

abbrev Search := Reader SearchException SearchState

namespace Search

/-- `is_matching[calculation_id] = matching`. -/
def setMatching (calculationId : Bytes) (matching : Bool) : Search Unit :=
  modify fun s => { s with isMatching := Assoc.assign calculationId matching s.isMatching }

def noteRetrieval (calculationId : Bytes) : Search Unit :=
  modify fun s => { s with retrieved := calculationId :: s.retrieved }

/-- `recurse`, where `search` is the search of an ID. -/
def recurse (search : Bytes → Search Unit) : CalcRequest → Search Unit
  | .reference ref => do
      let service ← liftM (getThinknodeServiceId ref)
      if service = .calc then search ref
  | _ => return

/-- `recurse` in a loop. -/
def recurseAll (search : Bytes → Search Unit) : List CalcRequest → Search Unit
  | [] => return
  | request :: requests => do
      recurse search request
      recurseAll search requests

/-- The switch for a request without content: the content is cast where it is needed. -/
def searchStale (calculationId : Bytes) : Option CalcRequestTag → Search Unit
  | some .reference | some .value => setMatching calculationId false
  | some .function => throw .badAnyCast
  | some .let =>
      throw (.internalCheckFailed "resolved calculation request contains 'let'")
  | some .variable =>
      throw (.internalCheckFailed "resolved calculation request contains 'variable'")
  | some .array | some .item | some .object | some .property | some .meta | some .cast => do
      setMatching calculationId false
      throw .badAnyCast
  | none => throw .invalidEnumValue

section
variable (retrieve : Bytes → Except RetrievalError CalcRequest)
  (staleTag : Bytes → Option CalcRequestTag) (searchString : Bytes)

/-- `search_calculation` with a map of what has been searched, and with as many nested calls as
there is fuel for. -/
def searchCalculation : ℕ → Bytes → Search Unit
  | 0, _ => throw .outOfFuel
  | fuel + 1, calculationId => do
      let s ← get
      if (Assoc.find calculationId s.isMatching).isSome then return
      noteRetrieval calculationId
      match retrieve calculationId with
      | .error (.badHttpStatusCode statusCode) =>
          if statusCode = 404 then setMatching calculationId false
          else searchStale calculationId (staleTag calculationId)
      | .error e => throw (.retrieval e)
      | .ok (.reference _) | .ok (.value _) => setMatching calculationId false
      | .ok (.function _ _ name _ args) => do
          setMatching calculationId (Occurrence.find searchString name).isSome
          recurseAll (searchCalculation fuel) args
      | .ok (.array items _) => do
          setMatching calculationId false
          recurseAll (searchCalculation fuel) items
      | .ok (.item array _ _) => do
          setMatching calculationId false
          recurse (searchCalculation fuel) array
      | .ok (.object properties _) => do
          setMatching calculationId false
          recurseAll (searchCalculation fuel) (properties.map Prod.snd)
      | .ok (.property object _ _) => do
          setMatching calculationId false
          recurse (searchCalculation fuel) object
      | .ok (.let _ _) =>
          throw (.internalCheckFailed "resolved calculation request contains 'let'")
      | .ok (.variable _) =>
          throw (.internalCheckFailed "resolved calculation request contains 'variable'")
      | .ok (.meta generator _) => do
          setMatching calculationId false
          recurse (searchCalculation fuel) generator
      | .ok (.cast _ object) => do
          setMatching calculationId false
          recurse (searchCalculation fuel) object

/-- The run of a search from the start. -/
def run (fuel : ℕ) (calculationId : Bytes) : Except SearchException Unit × SearchState :=
  (searchCalculation retrieve staleTag searchString fuel calculationId).exec {}

/-- `search_calculation`: the IDs of the matches. -/
def searchMatches (fuel : ℕ) (calculationId : Bytes) : Except SearchException (List Bytes) :=
  match run retrieve staleTag searchString fuel calculationId with
  | (.ok (), s) => .ok ((s.isMatching.filter Prod.snd).map Prod.fst)
  | (.error e, _) => .error e

end

end Search
end Cradle.Thinknode
