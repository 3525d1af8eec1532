-- SUMMARY: The JSON text of a packet: the export that `print` writes and the reader of `loadjson`.
import EternityII.Base.Decimal
import EternityII.Base.Regex
import EternityII.Possibility.Packet

/-!
# Packets as JSON text

`fprint_possibility_packet` writes `alloc`, `x`, `y` and the grid, row by row. `read_from_json`
finds the fields with one regular expression and the numbers of the grid with another, and
rebuilds the mask from the values of the cells.
-/

open Regex

/-! ## Writing -/

section Print

variable {P : Puzzle}

/-- A row of `build_grid_json`. -/
def gridRowJson (g : Grid P) (y : Fin P.eternSize) : List Char :=
  '[' :: [',', ' '].intercalate ((List.finRange P.eternSize).map fun x => Decimal.print (g (x, y))) ++ [']']

/-- `build_grid_json`. -/
def buildGridJson (g : Grid P) : List Char :=
  '[' :: [',', ' '].intercalate ((List.finRange P.eternSize).map (gridRowJson g)) ++ [']']

/-- A field of the text: its name between quotes, a colon, and its value. -/
def fieldJson (key value : List Char) : List Char := '"' :: key ++ ['"', ':', ' '] ++ value

/-- `fprint_possibility_packet`. -/
def fprintPossibilityPacket (packet : Packet P) : List Char :=
  '{' :: fieldJson "alloc".toList (Decimal.print packet.alloc.toNat) ++ [',', ' '] ++
    fieldJson "x".toList (Decimal.print packet.x.toNat) ++ [',', ' '] ++
    fieldJson "y".toList (Decimal.print packet.y.toNat) ++ [',', ' '] ++
    fieldJson "grid".toList (buildGridJson packet.grid) ++ ['}', '\n']

end Print

/-! ## The two expressions -/

/-- The characters of a C string. -/
def cChars : List Char := (List.range' 1 255).map Char.ofNat

/-- A negated class. -/
def noneOf (cs : List Char) : RegularExpression Char := oneOf (cChars.filter (· ∉ cs))

/-- `(-*[0-9]+)`. -/
def numberRegex : List (RegularExpression Char) :=
  [.star (oneOf ['-']), oneOrMore (oneOf Decimal.digits)]

/-- `\[[^[]+\][, ]*`. -/
def rowRegex : List (RegularExpression Char) :=
  [literal ['['], oneOrMore (noneOf ['[']), literal [']'], .star (oneOf [',', ' '])]

/-- `[^,\x7b\[]+|\[(\[[^[]+\][, ]*)+\]|\[[^]]+\]`. -/
def valueRegex : RegularExpression Char :=
  oneOrMore (noneOf [',', '\x7b', '[']) +
    concat [literal ['['], oneOrMore (concat rowRegex), literal [']']] +
    concat [literal ['['], oneOrMore (noneOf [']']), literal [']']]

/-- `"([^"]*)": (…)`: the second and the fourth part are the groups. -/
def jsonRegex : List (RegularExpression Char) :=
  [literal ['"'], .star (noneOf ['"']), literal ['"', ':', ' '], valueRegex]

/-! ## Reading -/

section Read

variable {P : Puzzle}

/-- `compute_grid` for one number: the cell, and the bit `rPart % ETERN_PARTS` of the mask. -/
def Packet.readCell (possibility : Packet P) (c : Cell P) (rPart : Int) : Packet P :=
  { possibility with
    grid := Function.update possibility.grid c rPart
    bFaceused := if rPart ≥ 0 then setFaceUsed possibility.bFaceused (rPart.toNat % P.eternParts) true
      else possibility.bFaceused }

/-- The loop of `compute_grid`; each turn consumes a character, so `fuel` may be the length
of the text. -/
def computeGridLoop (fuel : Nat) (cursor : List Char) (x y : Nat) (possibility : Packet P) : Packet P :=
  match fuel with
  | 0 => possibility
  | fuel + 1 =>
    match exec numberRegex cursor with
    | none => possibility
    | some m =>
      if h : x < P.eternSize ∧ y < P.eternSize then
        let rPart := (Int16.ofInt (Decimal.atoi m.parts.flatten)).toInt
        let possibility := possibility.readCell (⟨x, h.1⟩, ⟨y, h.2⟩) rPart
        if m.after = [] then possibility
        else if x + 1 ≥ P.eternSize then computeGridLoop fuel m.after 0 (y + 1) possibility
        else computeGridLoop fuel m.after (x + 1) y possibility
      else possibility

/-- `compute_grid`. -/
def computeGrid (possibility : Packet P) (str : List Char) : Packet P :=
  computeGridLoop str.length str 0 0 possibility

/-- A packet of `malloc` after the marks of all pieces have been cleared. -/
def Packet.clearFaces (memory : Packet P) : Packet P :=
  { memory with
    bFaceused := (List.range P.eternParts).foldl (fun faceused p => setFaceUsed faceused p false)
      memory.bFaceused }

/-- The field a match assigns. -/
def Packet.readField (possibility : Packet P) (key value : List Char) : Packet P :=
  if key = "alloc".toList then { possibility with alloc := UInt16.ofInt (Decimal.atoi value) }
  else if key = "x".toList then { possibility with x := UInt8.ofInt (Decimal.atoi value) }
  else if key = "y".toList then { possibility with y := UInt8.ofInt (Decimal.atoi value) }
  else if key = "grid".toList then computeGrid possibility value
  else possibility

/-- The reader left the string: a match at its very end moves the cursor behind the zero. -/
inductive JsonFault where
  | pastEnd

/-- The loop of `read_from_json`; `none` is the null pointer. -/
def readFromJsonLoop (memory : Packet P) (fuel : Nat) (cursor : List Char)
    (possibility : Option (Packet P)) : Except JsonFault (Option (Packet P)) :=
  match fuel with
  | 0 => .ok possibility
  | fuel + 1 =>
    match exec jsonRegex cursor with
    | none => .ok possibility
    | some m =>
      let possibility := possibility.getD memory.clearFaces
      let possibility := possibility.readField (m.parts.getD 1 []) (m.parts.getD 3 [])
      match m.after with
      | [] => .error .pastEnd
      | _ :: cursor =>
        if cursor = [] then .ok (some possibility)
        else readFromJsonLoop memory fuel cursor (some possibility)

/-- `read_from_json`; `memory` is what the fresh packet holds before it is filled. -/
def readFromJson (memory : Packet P) (json : List Char) : Except JsonFault (Option (Packet P)) :=
  readFromJsonLoop memory json.length json none

end Read
