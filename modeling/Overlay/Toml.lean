import Overlay.Entries
import Overlay.Number.Integer
/-!
TOML documents, as far as settings make use of them: tables of strings, truth values, arrays and
tables. No setting is a number, a date or an array of tables, so a document with one of these is
refused like one that is no TOML at all.
-/

namespace Overlay

inductive TableKind where
  | implied
  | header
  | dotted
  | inline
  deriving DecidableEq, Repr

inductive Toml where
  | text (value : String)
  | flag (value : Bool)
  | array (items : List Toml)
  | table (kind : TableKind) (entries : List (String × Toml))

namespace Toml

/-- Assigns a value to a key, which is a path of names. Tables on the way are made if they are
missing; only such tables may be entered again. -/
def assign (value : Toml) : List String → List (String × Toml) → Option (List (String × Toml))
  | [], _ => none
  | [name], entries =>
    match entries.lookup name with
    | none => some (entries ++ [(name, value)])
    | some _ => none
  | name :: names, entries =>
    match entries.lookup name with
    | none => (assign value names []).map fun inner => entries ++ [(name, table .dotted inner)]
    -- tables with a header of their own, or on one line, take no dotted keys
    | some (table .dotted inner) =>
      (assign value names inner).map fun inner => Entries.put name (table .dotted inner) entries
    | some _ => none

/-- Opens the table of a header. It may have been implied by the header of an inner table, but not
have been made otherwise. -/
def openTable : List String → List (String × Toml) → Option (List (String × Toml))
  | [], _ => none
  | [name], entries =>
    match entries.lookup name with
    | none => some (entries ++ [(name, table .header [])])
    -- it keeps what inner headers have put into it
    | some (table .implied inner) => some (Entries.put name (table .header inner) entries)
    | some _ => none
  | name :: names, entries =>
    match entries.lookup name with
    | none => (openTable names []).map fun inner => entries ++ [(name, table .implied inner)]
    | some (table .inline _) => none
    | some (table kind inner) =>
      (openTable names inner).map fun inner => Entries.put name (table kind inner) entries
    | some _ => none

def within (change : List (String × Toml) → Option (List (String × Toml))) :
    List String → List (String × Toml) → Option (List (String × Toml))
  | [], entries => change entries
  | name :: names, entries =>
    match entries.lookup name with
    | some (table kind inner) =>
      (within change names inner).map fun inner => Entries.put name (table kind inner) entries
    | _ => none

/-! Characters -/

def isBlank (c : Char) : Bool := c == ' ' || c == '\t'

def isPlain (c : Char) : Bool := c == '\t' || (0x20 ≤ c.toNat && c.toNat ≠ 0x7f)

def isKeyChar (c : Char) : Bool := c.isAlphanum || c == '_' || c == '-'

def skipBlank (cs : List Char) : List Char := cs.dropWhile isBlank

def endLine (cs : List Char) : Option (List Char) :=
  let rest := match skipBlank cs with
    | '#' :: cs => cs.dropWhile isPlain
    | cs => cs
  match rest with
  | [] => some []
  | '\n' :: cs => some cs
  | '\r' :: '\n' :: cs => some cs
  | _ => none

def skipGap (inComment : Bool) : List Char → Option (List Char)
  | [] => some []
  | '\r' :: '\n' :: cs => skipGap false cs
  | c :: cs =>
    if c = '\n' then skipGap false cs
    else if inComment then (if isPlain c then skipGap true cs else none)
    else if isBlank c then skipGap false cs
    else if c = '#' then skipGap true cs
    else some (c :: cs)

/-! Strings -/

def ofHex? (ds : List Char) : Option Char :=
  let n := Number.ofDigits 16 ds
  if ds.all Number.isHexDigit && n.isValidChar then some (Char.ofNat n) else none

def escape? : Char → Option Char
  | 'b' => some '\x08'
  | 't' => some '\t'
  | 'n' => some '\n'
  | 'f' => some '\x0c'
  | 'r' => some '\r'
  | '"' => some '"'
  | '\\' => some '\\'
  | _ => none

def readBasic : List Char → Option (List Char × List Char)
  | [] => none
  | '"' :: cs => some ([], cs)
  | '\\' :: 'u' :: a :: b :: c :: d :: cs => do
    let x ← ofHex? [a, b, c, d]
    let (value, rest) ← readBasic cs
    return (x :: value, rest)
  | '\\' :: 'U' :: a :: b :: c :: d :: e :: f :: g :: h :: cs => do
    let x ← ofHex? [a, b, c, d, e, f, g, h]
    let (value, rest) ← readBasic cs
    return (x :: value, rest)
  | '\\' :: c :: cs => do
    let x ← escape? c
    let (value, rest) ← readBasic cs
    return (x :: value, rest)
  | c :: cs =>
    if isPlain c ∧ c ≠ '\\' then do
      let (value, rest) ← readBasic cs
      return (c :: value, rest)
    else none

def readLiteral : List Char → Option (List Char × List Char)
  | [] => none
  | '\'' :: cs => some ([], cs)
  | c :: cs =>
    if isPlain c then do
      let (value, rest) ← readLiteral cs
      return (c :: value, rest)
    else none

/-- The end of a string over several lines: three quotes, and up to two more in front of them that
belong to the string. -/
def closing? (q : Char) (cs : List Char) : Option (List Char × List Char) :=
  let n := (cs.takeWhile (· = q)).length
  if n < 3 then none
  else
    -- of four or five quotes the last three close the string
    let own := min n 5 - 3
    some (List.replicate own q, cs.drop (own + 3))

/-- What has just been read in a string over several lines: text, a backslash with blanks behind
it, or the end of a line behind those. -/
inductive Fold where
  | text
  | backslash
  | newline
  deriving DecidableEq, Repr

def readBasicLines (fold : Fold) : List Char → Option (List Char × List Char)
  | [] => none
  | '\r' :: '\n' :: cs => do
    -- behind a backslash the end of the line is taken away
    if fold = .text then
      let (value, rest) ← readBasicLines .text cs
      return ('\n' :: value, rest)
    else readBasicLines .newline cs
  | '\\' :: 'u' :: a :: b :: c :: d :: cs => do
    if fold = .backslash then none
    else
      let x ← ofHex? [a, b, c, d]
      let (value, rest) ← readBasicLines .text cs
      return (x :: value, rest)
  | '\\' :: 'U' :: a :: b :: c :: d :: e :: f :: g :: h :: cs => do
    if fold = .backslash then none
    else
      let x ← ofHex? [a, b, c, d, e, f, g, h]
      let (value, rest) ← readBasicLines .text cs
      return (x :: value, rest)
  | '\\' :: '\r' :: '\n' :: cs => if fold = .backslash then none else readBasicLines .newline cs
  | '\\' :: c :: cs => do
    if fold = .backslash then none
    else if isBlank c then readBasicLines .backslash cs
    else if c = '\n' then readBasicLines .newline cs
    else
      let x ← escape? c
      let (value, rest) ← readBasicLines .text cs
      return (x :: value, rest)
  | c :: cs => do
    if c = '\n' ∧ fold = .text then
      let (value, rest) ← readBasicLines .text cs
      return ('\n' :: value, rest)
    else if c = '\n' then readBasicLines .newline cs
    -- so are the blanks, on this line and on those that follow
    else if isBlank c ∧ fold ≠ .text then readBasicLines fold cs
    -- a backslash before blanks has to be the last thing on its line
    else if fold = .backslash then none
    else
      match closing? '"' (c :: cs) with
      | some last => some last
      | none =>
        if isPlain c ∧ c ≠ '\\' then
          let (value, rest) ← readBasicLines .text cs
          return (c :: value, rest)
        else none

def readLiteralLines : List Char → Option (List Char × List Char)
  | [] => none
  | '\r' :: '\n' :: cs => do
    let (value, rest) ← readLiteralLines cs
    return ('\n' :: value, rest)
  | c :: cs =>
    match closing? '\'' (c :: cs) with
    | some last => some last
    | none =>
      if isPlain c || c == '\n' then do
        let (value, rest) ← readLiteralLines cs
        return (c :: value, rest)
      else none

def skipNewline : List Char → List Char
  | '\n' :: cs => cs
  | '\r' :: '\n' :: cs => cs
  | cs => cs

def readText : List Char → Option (List Char × List Char)
  | '"' :: '"' :: '"' :: cs => readBasicLines .text (skipNewline cs)
  | '"' :: cs => readBasic cs
  | '\'' :: '\'' :: '\'' :: cs => readLiteralLines (skipNewline cs)
  | '\'' :: cs => readLiteral cs
  | _ => none

/-! Keys, values and documents. What nests is read with as much fuel as there are characters. -/

def readName : List Char → Option (String × List Char)
  | '"' :: cs => (readBasic cs).map fun (name, rest) => (.ofList name, rest)
  | '\'' :: cs => (readLiteral cs).map fun (name, rest) => (.ofList name, rest)
  | cs =>
    let name := cs.takeWhile isKeyChar
    if name.isEmpty then none else some (.ofList name, cs.dropWhile isKeyChar)

def readKey : (fuel : Nat) → List Char → Option (List String × List Char)
  | 0, _ => none
  | fuel + 1, cs => do
    let (name, rest) ← readName cs
    match skipBlank rest with
    | '.' :: rest =>
      let (names, rest) ← readKey fuel (skipBlank rest)
      return (name :: names, rest)
    | rest => return ([name], rest)

def readEquals : List Char → Option (List Char)
  | '=' :: cs => some (skipBlank cs)
  | _ => none

mutual

def readValue : (fuel : Nat) → List Char → Option (Toml × List Char)
  | 0, _ => none
  | fuel + 1, cs =>
    match cs with
    | 't' :: 'r' :: 'u' :: 'e' :: rest => some (.flag true, rest)
    | 'f' :: 'a' :: 'l' :: 's' :: 'e' :: rest => some (.flag false, rest)
    | '[' :: rest => do
      let (items, rest) ← readItems fuel (← skipGap false rest)
      return (.array items, rest)
    | '\x7b' :: rest =>
      match skipBlank rest with
      | '\x7d' :: rest => some (.table .inline [], rest)
      | rest => do
        let (entries, rest) ← readEntries fuel [] rest
        return (.table .inline entries, rest)
    | _ => (readText cs).map fun (value, rest) => (.text (.ofList value), rest)

def readItems : (fuel : Nat) → List Char → Option (List Toml × List Char)
  | 0, _ => none
  | _ + 1, ']' :: rest => some ([], rest)
  | fuel + 1, cs => do
    let (item, rest) ← readValue fuel cs
    match ← skipGap false rest with
    | ',' :: rest =>
      let (items, rest) ← readItems fuel (← skipGap false rest)
      return (item :: items, rest)
    | ']' :: rest => return ([item], rest)
    | _ => none

def readEntries : (fuel : Nat) → List (String × Toml) → List Char →
    Option (List (String × Toml) × List Char)
  | 0, _, _ => none
  | fuel + 1, entries, cs => do
    let (key, rest) ← readKey cs.length cs
    let (value, rest) ← readValue fuel (← readEquals rest)
    let entries ← assign value key entries
    match skipBlank rest with
    | ',' :: rest => readEntries fuel entries (skipBlank rest)
    | '\x7d' :: rest => some (entries, rest)
    | _ => none

end

def readLines : (fuel : Nat) → (current : List String) → List (String × Toml) → List Char →
    Option (List (String × Toml))
  | 0, _, _, _ => none
  | fuel + 1, current, entries, cs =>
    match skipBlank cs with
    | [] => some entries
    | '[' :: rest => do
      let (key, rest) ← readKey rest.length (skipBlank rest)
      match rest with
      | ']' :: rest => readLines fuel key (← openTable key entries) (← endLine rest)
      | _ => none
    | cs =>
      match endLine cs with
      | some rest => readLines fuel current entries rest
      | none => do
        let (key, rest) ← readKey cs.length cs
        let (value, rest) ← readValue cs.length (← readEquals rest)
        -- keys are relative to the table of the last header
        let entries ← within (assign value key) current entries
        readLines fuel current entries (← endLine rest)

def readDocument? (document : String) : Option (List (String × Toml)) :=
  let cs := match document.toList with
    | '\ufeff' :: cs => cs
    | cs => cs
  readLines (cs.length + 1) [] [] cs

end Toml

end Overlay
