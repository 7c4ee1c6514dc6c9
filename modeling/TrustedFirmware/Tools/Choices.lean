import TrustedFirmware.Tools.KeywordSubstitution

/-!
# What an expansion should give

The keychains of a template meet lists in the database. A *choice* takes one element of each of them:
what is left of the database then has no lists, and every keychain can be looked up in it on its own.
Keychains with a common prefix walk through the same part of the choice, so they share what was chosen
there. The choices are listed in the order of the lists, those for the first keychain varying slowest.
The keys of a keychain are those that `searchKey` and `dropKeyword` take off it.
-/

namespace Tfm.Tools

/-- A database without lists. -/
inductive Choice where
  | leaf (value : Scalar)
  | dict (entries : List (Text × Choice))

/-! ## Choices

The keychains are followed into the database side by side, those with the same first key together.
The order is that in which the source goes through the lists. -/

/-- The first keys of some keychains, each once. -/
def chainKeys (chains : List Text) : List Text := (chains.filterMap searchKey).eraseDups

/-- What is left of the keychains that start with `key`. -/
def chainsBehind (key : Text) (chains : List Text) : List Text :=
  (chains.filter fun chain => searchKey chain = some key).map dropKeyword

/-- One alternative for every key. -/
def combinations {α : Type} : List (Text × List α) → List (List (Text × α))
  | [] => [[]]
  | (key, alternatives) :: rest =>
    alternatives.flatMap fun a => (combinations rest).map fun entries => (key, a) :: entries

mutual

/-- The choices of one element from each list that the keychains meet. -/
def Tree.choices : Tree → List Text → List Choice
  | .leaf value, _ => [.leaf value]
  -- the chains of all keys behind this point share the element
  | .list instances, chains => instancesChoices instances chains
  | .dict entries, chains =>
    (combinations ((chainKeys chains).map fun key =>
      (key, entryChoices entries key (chainsBehind key chains)))).map .dict

/-- The choices from the elements of a list, one behind the other. -/
def instancesChoices : List Tree → List Text → List Choice
  | [], _ => []
  | db :: instances, chains => db.choices chains ++ instancesChoices instances chains

/-- The choices for the value of a key. -/
def entryChoices : List (Text × Tree) → Text → List Text → List Choice
  | [], _, _ => []
  | (groupkey, db) :: entries, key, chains =>
    if key = groupkey then db.choices chains else entryChoices entries key chains

end

/-- The choices from a list are those from its elements. -/
theorem instancesChoices_eq (instances : List Tree) (chains : List Text) :
    instancesChoices instances chains = instances.flatMap fun db => db.choices chains := by
  induction instances with
  | nil => rfl
  | cons db instances ih => rw [instancesChoices, ih, List.flatMap_cons]

theorem lookup_cons_eq_ite {α : Type} (key groupkey : Text) (a : α) (entries : List (Text × α)) :
    ((groupkey, a) :: entries).lookup key
      = if key = groupkey then some a else entries.lookup key := by
  by_cases h : key = groupkey
  · simp [h]
  · rw [List.lookup_cons, beq_false_of_ne h, if_neg h]

/-- The choices for a key are those from the value that is found for it. -/
theorem entryChoices_of_lookup {entries : List (Text × Tree)} {key : Text} {db : Tree}
    (h : entries.lookup key = some db) (chains : List Text) :
    entryChoices entries key chains = db.choices chains := by
  induction entries with
  | nil => cases h
  | cons entry entries ih =>
    rw [lookup_cons_eq_ite] at h
    rw [entryChoices]
    split at h
    · rename_i hkey
      rw [if_pos hkey, Option.some.inj h]
    · rename_i hkey
      rw [if_neg hkey, ih h]

/-! ## Lines

A line has as many fragments as the template, and the keychains are the ones that change. -/

mutual

/-- The leaf that a keychain names in a choice, if its keys end there. -/
def Choice.leafOf : Choice → Text → Option Scalar
  | .leaf value, chain => if searchKey chain = none then some value else none
  | .dict entries, chain =>
    match searchKey chain with
    | none => none
    | some key => entryLeafOf entries key (dropKeyword chain)

/-- The same in the value of a key. -/
def entryLeafOf : List (Text × Choice) → Text → Text → Option Scalar
  | [], _, _ => none
  | (groupkey, choice) :: entries, key, chain =>
    if key = groupkey then choice.leafOf chain else entryLeafOf entries key chain

end

/-- The line for a choice: the literal fragments of the template are unchanged, and every keychain that
is fully resolved is replaced by the text of its leaf. -/
structure WholeLine (fragments : List Text) (chains : List Nat) (choice : Choice) (filled : List Text) :
    Prop where
  length : filled.length = fragments.length
  literal : ∀ i, i ∉ chains → filled[i]? = fragments[i]?
  resolved : ∀ i ∈ chains, ∀ fragment value, fragments[i]? = some fragment →
    choice.leafOf fragment = some value → filled[i]? = some value.text

/-- The keychains of a template. -/
def keychains (fragments : List Text) (chains : List Nat) : List Text :=
  chains.map fun chain => fragments.getD chain []

/-- The expansion gives one whole line for every choice, in their order. -/
def Expands (fragments : List Text) (chains : List Nat) (db : Tree)
    (outlist : Except PyErr (List Line)) : Prop :=
  ∃ lines : List (List Text), outlist = .ok (lines.map .fragments)
    ∧ List.Forall₂ (WholeLine fragments chains) (db.choices (keychains fragments chains)) lines

/-! ## Databases

What has to be known about a database for the lines to come out whole. Each condition follows the
keychains, and says nothing about the rest of the database. -/

/-- The keys of the keychain exist wherever it leads. -/
inductive HasKeys : Tree → Text → Prop where
  | leaf {value : Scalar} {chain : Text} (h : searchKey chain = none) : HasKeys (.leaf value) chain
  | list {instances : List Tree} {chain : Text} (h : ∀ db ∈ instances, HasKeys db chain) :
      HasKeys (.list instances) chain
  | none {entries : List (Text × Tree)} {chain : Text} (h : searchKey chain = none) :
      HasKeys (.dict entries) chain
  | some {entries : List (Text × Tree)} {chain key : Text} {db : Tree}
      (hkey : searchKey chain = some key) (hdb : entries.lookup key = some db)
      (h : HasKeys db (dropKeyword chain)) : HasKeys (.dict entries) chain

/-- What `leaftype` says of the database. -/
def Tree.isLeaf : Tree → Bool
  | .leaf value => leaftype value
  | _ => false

/-- `str()` takes the value. -/
def Scalar.Printable (value : Scalar) : Prop := value.pyStr = .ok value.text

/-- No leaf is taken out of a list, nor is the database itself one, and the leaves that are values in a
dictionary are ones that `str()` takes. What stands behind a list without elements is not looked at. A
scalar that is no leaf does no harm to the line: it is `LeavesNamed` that speaks of it. -/
inductive NoBareScalar : Tree → List Text → Prop where
  | refused {value : Scalar} {chains : List Text} (h : leaftype value = false) :
      NoBareScalar (.leaf value) chains
  | list {instances : List Tree} {chains : List Text} (h : ∀ db ∈ instances, NoBareScalar db chains) :
      NoBareScalar (.list instances) chains
  | dict {entries : List (Text × Tree)} {chains : List Text}
      (hleaf : ∀ key ∈ chainKeys chains, ∀ value, entries.lookup key = some (.leaf value) →
        leaftype value = true → value.Printable)
      (hbranch : ∀ before key after db, chainKeys chains = before ++ key :: after →
        (∀ key' ∈ before, entryChoices entries key' (chainsBehind key' chains) ≠ []) →
        entries.lookup key = some db → db.isLeaf = false →
        NoBareScalar db (chainsBehind key chains)) :
      NoBareScalar (.dict entries) chains

/-- Every scalar that a keychain names, whatever is chosen, is a leaf to `leaftype`. -/
def LeavesNamed (db : Tree) (chains : List Text) : Prop :=
  ∀ choice ∈ db.choices chains, ∀ chain ∈ chains, ∀ value, choice.leafOf chain = some value →
    leaftype value = true

/-- Every list that the keychains meet has elements. -/
inductive ListsFilled : Tree → List Text → Prop where
  | leaf {value : Scalar} {chains : List Text} : ListsFilled (.leaf value) chains
  | list {instances : List Tree} {chains : List Text} (hne : instances ≠ [])
      (h : ∀ db ∈ instances, ListsFilled db chains) : ListsFilled (.list instances) chains
  | dict {entries : List (Text × Tree)} {chains : List Text}
      (h : ∀ key ∈ chainKeys chains, ∀ db, entries.lookup key = some db →
        ListsFilled db (chainsBehind key chains)) :
      ListsFilled (.dict entries) chains

/-- Induction over databases. -/
theorem Tree.induction {motive : Tree → Prop} (hleaf : ∀ value, motive (.leaf value))
    (hlist : ∀ instances, (∀ db ∈ instances, motive db) → motive (.list instances))
    (hdict : ∀ entries : List (Text × Tree), (∀ key db, entries.lookup key = some db → motive db) →
      motive (.dict entries)) : ∀ db, motive db
  | .leaf value => hleaf value
  | .list instances => hlist instances fun db _ => Tree.induction hleaf hlist hdict db
  | .dict entries => hdict entries fun key db h => by
    -- a value that is found is in the dictionary, and smaller
    have hmem : (key, db) ∈ entries := by
      obtain ⟨before, after, rfl, -⟩ := List.lookup_eq_some_iff.mp h
      simp
    have : sizeOf db < sizeOf entries := by
      have := List.sizeOf_lt_of_mem hmem
      simp only [Prod.mk.sizeOf_spec] at this
      omega
    exact Tree.induction hleaf hlist hdict db

end Tfm.Tools
