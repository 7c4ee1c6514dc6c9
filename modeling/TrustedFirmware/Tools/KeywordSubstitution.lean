import Mathlib.Data.List.Basic

/-!
# Template expansion

`keyword_substitution.py`: a line of a template is split into fragments, and the fragments that are
keychains (`@@key.key@@`) are replaced by what they name in a database, one line for every element of
the lists on the way. Strings are lists of characters. `substitute` returns a list whose elements are
lists of fragments or, where the source returns the fragments of a single line, plain strings; both can
be its argument again (`Line`). What the source prints is left out.
-/

namespace Tfm.Tools

abbrev Text : Type := List Char

/-- The exceptions that the source can raise. -/
inductive PyErr where
  | indexError
  | attributeError
  | unicodeEncodeError
  | systemExit
  deriving DecidableEq, Repr

/-! ## The database

What the template generator reads from its manifest files. In Python the type of a value decides
what happens to it, so the types are kept apart here, also those of texts and of integers. -/

/-- What `str()` makes of a number or a date: no keychain. -/
structure PlainText where
  chars : Text
  no_at : '@' ∉ chars
  deriving DecidableEq

/-- The values of a database that are no collections. -/
inductive Scalar where
  | str (s : Text)
  | unicode (s : Text)
  /-- An integer of a machine word. -/
  | int (n : Int64)
  | bool (b : Bool)
  /-- A larger integer, which has a type of its own in Python 2. -/
  | long (n : Int)
  /-- A value of another type: a float, `None`, a date. -/
  | other (text : PlainText)
  deriving DecidableEq

/-- The types that the source knows as leaves. -/
def leaftype : Scalar → Bool
  | .str _ | .unicode _ | .int _ | .bool _ => true
  | .long _ | .other _ => false

/-- What the database holds. A scalar need not be a leaf to `leaftype`. -/
inductive Tree where
  | leaf (value : Scalar)
  | list (instances : List Tree)
  | dict (entries : List (Text × Tree))

/-- The decimal digits of a number, with its sign. -/
def digits (n : Int) : Text :=
  if n < 0 then '-' :: Nat.toDigits 10 n.natAbs else Nat.toDigits 10 n.natAbs

/-- The characters of a value. -/
def Scalar.text : Scalar → Text
  | .str s => s
  | .unicode s => s
  | .int n => digits n.toInt
  | .bool b => if b then ['T', 'r', 'u', 'e'] else ['F', 'a', 'l', 's', 'e']
  | .long n => digits n
  | .other text => text.chars

/-- `str()` encodes a `unicode` value in ASCII. -/
def Scalar.pyStr (value : Scalar) : Except PyErr Text :=
  match value with
  | .unicode s => if s.all fun c => c.toNat < 128 then .ok s else .error .unicodeEncodeError
  | value => .ok value.text

/-! ## Regular expressions

The four expressions of the source, each as a function on lists of characters. Matching is greedy,
as in the source. A bound on the positions makes the recursion structural; it is never reached. -/

/-- `\w`. -/
def isWord (c : Char) : Bool := c.isAlphanum || c = '_'

/-- `[\.\w+]`. -/
def isChainChar (c : Char) : Bool := isWord c || c = '.' || c = '+'

/-- What is left of a keychain without keys. -/
def emptychain : Text := ['@', '@', '@', '@']

/-- `re.search('\w+', s)`. -/
def searchKey (s : Text) : Option Text :=
  let word := (s.dropWhile fun c => !isWord c).takeWhile isWord
  if word = [] then none else some word

/-- A match of `REfirstkeyword` at the start of a string: what is behind it. -/
def matchFirstkeyword : Text → Option Text
  | '@' :: '@' :: rest =>
    if rest.takeWhile isWord = [] then none
    else match rest.dropWhile isWord with
      | '.' :: rest => some rest
      | rest => some rest
  | _ => none

/-- `re.sub(REfirstkeyword, "@@", s)`, looking at no more than `n` positions. -/
def subFirstkeyword : Nat → Text → Text
  | 0, s => s
  | _ + 1, [] => []
  | n + 1, c :: s =>
    match matchFirstkeyword (c :: s) with
    | some rest => '@' :: '@' :: subFirstkeyword n rest
    | none => c :: subFirstkeyword n s

/-- The first key of a keychain is removed. -/
def dropKeyword (chain : Text) : Text := subFirstkeyword chain.length chain

/-- A match of `REkeychain` at the start of a string, and what is behind it. -/
def matchKeychain : Text → Option (Text × Text)
  | '@' :: '@' :: rest =>
    let body := rest.takeWhile isChainChar
    if (body.head?.any isWord) then
      match rest.dropWhile isChainChar with
      | '@' :: '@' :: after => some ('@' :: '@' :: body ++ ['@', '@'], after)
      | _ => none
    else none
  | _ => none

/-- `re.split("(" + REkeychain + ")", line)` with `literal` in front of the line, looking at no more
than `n` positions. -/
def splitKeychains : Nat → (literal line : Text) → List Text
  | 0, literal, line => [literal ++ line]
  | _ + 1, literal, [] => [literal]
  | n + 1, literal, c :: line =>
    match matchKeychain (c :: line) with
    | some (chain, after) => literal :: chain :: splitKeychains n [] after
    | none => splitKeychains n (literal ++ [c]) line

/-! ## `substitute`

The source asks for the type of the database first: a list forks the line, a leaf ends it, and a
dictionary sorts the keychains by their first key. The recursion on the database is separated from
the work on the line: each case is a function of the substitutions for the parts. -/

/-- A list of fragments or a string. -/
inductive Line where
  | fragments (pieces : List Text)
  | string (s : Text)
  deriving DecidableEq

/-- `list(templist)`. -/
def Line.toList : Line → List Text
  | .fragments pieces => pieces
  | .string s => s.map fun c => [c]

/-- `templist[chain]`. -/
def Line.item (templist : Line) (chain : Nat) : Except PyErr Text :=
  match templist.toList[chain]? with
  | some fragment => .ok fragment
  | none => .error .indexError

/-- `transientlist[chain] = fragment`. -/
def setItem (transientlist : List Text) (chain : Nat) (fragment : Text) : Except PyErr (List Text) :=
  if chain < transientlist.length then .ok (transientlist.set chain fragment) else .error .indexError

/-- `substitute` for a given database, as a function of template and chains. -/
abbrev Substitution : Type := Line → List Nat → Except PyErr (List Line)

/-- The results for some arguments, one behind the other. -/
def extendAll {α : Type} (f : α → Except PyErr (List Line)) : List α → Except PyErr (List Line)
  | [] => .ok []
  | a :: as => do
    let outlist ← f a
    let rest ← extendAll f as
    pure (outlist ++ rest)

/-- `db` is a list. -/
def substituteList (instances : List Substitution) : Substitution := fun templist chains =>
  extendAll (fun sub => sub templist chains) instances

/-- `db` is a leaf: the line itself is returned, not a list of lines. -/
def substituteLeaf (value : Scalar) : Substitution := fun templist chains => do
  let transientlist ← chains.foldlM (fun transientlist chain => do
    let fragment ← templist.item chain
    let text ← value.pyStr
    setItem transientlist chain (if fragment = emptychain then text else text ++ fragment))
    templist.toList
  pure (transientlist.map .string)

/-- A key with its chains. -/
abbrev ChainGroup : Type := Text × List Nat

/-- Add a chain to the group of its key, or open a group behind the others. -/
def insertChain (key : Text) (chain : Nat) : List ChainGroup → List ChainGroup
  | [] => [(key, [chain])]
  | (groupkey, chains) :: groups =>
    if key = groupkey then (groupkey, chains ++ [chain]) :: groups
    else (groupkey, chains) :: insertChain key chain groups

/-- The chain groups with the same key. -/
def chainGroups (templist : Line) (chains : List Nat) : Except PyErr (List ChainGroup) :=
  chains.foldlM (fun groups chain => do
    let fragment ← templist.item chain
    match searchKey fragment with
    | none => pure groups
    | some key => pure (insertChain key chain groups)) []

/-- `MISSING_KEYS_ACTION`. -/
inductive MissingKeysAction where
  | report
  | halt
  | hide
  | replace (placeholder : Text)
  deriving DecidableEq

/-- An entry of a dictionary: a leaf, or a branch with the substitution for it. -/
abbrev DictEntry : Type := Text × (Scalar ⊕ Substitution)

/-- Set the fragments of some chains. -/
def setItems (transientlist : List Text) (chains : List Nat) (fragment : Nat → Except PyErr Text) :
    Except PyErr (List Text) :=
  chains.foldlM (fun transientlist chain => do
    let fragment ← fragment chain
    setItem transientlist chain fragment) transientlist

/-- The key lookup for a group: the new fragments, and the chains that go deeper. -/
def selectGroup (missing : MissingKeysAction) (db : List DictEntry) (templist : Line)
    (transientlist : List Text) (group : ChainGroup) : Except PyErr (List Text × List Nat) :=
  match db.lookup group.1 with
  | some (.inl value) => do
    let transientlist ← setItems transientlist group.2 fun _ => value.pyStr
    pure (transientlist, [])
  | some (.inr _) => do
    let transientlist ← setItems transientlist group.2 fun chain => do
      let fragment ← templist.item chain
      pure (dropKeyword fragment)
    pure (transientlist, group.2)
  | none =>
    match missing with
    -- the source calls `exit`
    | .halt => .error .systemExit
    | .replace placeholder => do
      let transientlist ← setItems transientlist group.2 fun _ => pure placeholder
      pure (transientlist, [])
    -- the keychain stays in the line
    | _ => pure (transientlist, [])

/-- The key lookup for all groups. -/
def selectGroups (missing : MissingKeysAction) (db : List DictEntry) (templist : Line) :
    List Text → List ChainGroup → Except PyErr (List Text × List ChainGroup)
  | transientlist, [] => pure (transientlist, [])
  | transientlist, group :: groups => do
    let o ← selectGroup missing db templist transientlist group
    let rest ← selectGroups missing db templist o.1 groups
    pure (rest.1, (group.1, o.2) :: rest.2)

/-- Go deeper for each group that has chains. The first one forks the line, the others the lines that
are there by then. -/
def forkGroups (db : List DictEntry) (transientlist : List Text) :
    Option (List Line) → List ChainGroup → Except PyErr (List Line)
  | forked, [] => pure (forked.getD [.fragments transientlist])
  | forked, (key, chains) :: groups =>
    match chains, db.lookup key with
    | _ :: _, some (.inr sub) => do
      let outlist ← match forked with
        | none => sub (.fragments transientlist) chains
        | some outlist => extendAll (fun item => sub item chains) outlist
      forkGroups db transientlist (some outlist) groups
    | _, _ => forkGroups db transientlist forked groups

/-- `db` is a dictionary. -/
def substituteDict (missing : MissingKeysAction) (db : List DictEntry) : Substitution :=
  fun templist chains => do
    let groups ← chainGroups templist chains
    let selected ← selectGroups missing db templist templist.toList groups
    forkGroups db selected.1 none selected.2

/-- `db` is a scalar, but no leaf: it is taken for a dictionary. Without a key to look up nothing happens
to the line; the first lookup asks for the keys of a value that has none. -/
def substituteRefused : Substitution := fun templist chains => do
  let groups ← chainGroups templist chains
  if groups = [] then pure [.fragments templist.toList] else .error .attributeError

/-- A dictionary's value is a leaf, or a branch. -/
def Tree.entry : Tree → Substitution → Scalar ⊕ Substitution
  | .leaf value, sub => if leaftype value then .inl value else .inr sub
  | _, sub => .inr sub

mutual

def Tree.substitute (missing : MissingKeysAction) : Tree → Substitution
  | .leaf value => if leaftype value then substituteLeaf value else substituteRefused
  | .list instances => substituteList (substituteInstances missing instances)
  | .dict entries => substituteDict missing (substituteEntries missing entries)

/-- The substitutions for the elements of a list. -/
def substituteInstances (missing : MissingKeysAction) : List Tree → List Substitution
  | [] => []
  | db :: instances => db.substitute missing :: substituteInstances missing instances

/-- The substitutions for the values of a dictionary. -/
def substituteEntries (missing : MissingKeysAction) : List (Text × Tree) → List DictEntry
  | [] => []
  | (key, db) :: entries =>
    (key, db.entry (db.substitute missing)) :: substituteEntries missing entries

end

/-! ## `keyword_substitute`

The template is split, and the fragments that look like keychains are the chains. -/

/-- `templist`. -/
def templateFragments (line : Text) : List Text := splitKeychains (line.length + 1) [] line

/-- The fragments that are keychains. -/
def templateChains (line : Text) : List Nat :=
  (List.range (templateFragments line).length).filter fun idx =>
    (matchKeychain ((templateFragments line).getD idx [])).isSome

/-- The line is expanded with all of the database. -/
def keywordSubstitute (db : Tree) (line : Text) (missingKeys : MissingKeysAction) :
    Except PyErr (List Line) :=
  db.substitute missingKeys (.fragments (templateFragments line)) (templateChains line)

end Tfm.Tools
