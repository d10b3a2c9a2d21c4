import LuaSyntax.CommandLine.Options
import Mathlib.Logic.ExistsUnique
import Mathlib.Algebra.Group.Nat.Defs

/-! # The language of arguments

Arguments are a row of items: options, one of which takes the argument behind it as its value, and paths.
Reading them takes one item after the other. It ends with what the items give, or at the first argument
with which no further item begins.
-/
namespace LuaSyntax.CommandLine

/-- Decimal digits, with at most one plus sign before them, of a number between 1 and the largest of
64 bits. -/
structure IsDepth (value : String) (depth : Nat) : Prop where
  digits : ∃ digits, (value.toList = digits ∨ value.toList = '+' :: digits) ∧ digits ≠ [] ∧
    (∀ c ∈ digits, c.isDigit) ∧ Nat.ofDigitChars 10 digits 0 = depth
  bounds : 1 ≤ depth ∧ depth ≤ 2 ^ 64 - 1

/-- A path begins with no dash, or it is a dash alone. It may be empty. -/
def IsPath (argument : String) : Prop := argument.toList.head? ≠ some '-' ∨ argument = "-"

inductive Item where
  | lines
  /-- A nesting limit and how it is written. -/
  | depth (value : String) (limit : Nat)
  | path (argument : String)
  deriving DecidableEq, Repr

namespace Item

/-- The arguments that an item consists of. -/
def arguments : Item → List String
  | lines => ["--lines"]
  | depth value _ => ["--max-depth", value]
  | path argument => [argument]

def Valid : Item → Prop
  | lines => True
  | depth value limit => IsDepth value limit
  | path argument => IsPath argument

def path? : Item → Option String
  | path argument => some argument
  | _ => none

def limit? : Item → Option Nat
  | depth _ limit => some limit
  | _ => none

end Item

/-- The options that items give: their one path, the last of their limits, and lines if they ask for them. -/
structure Options.Given (options : Options) (items : List Item) : Prop where
  path : items.filterMap Item.path? = [options.path]
  limit : options.limit = (items.filterMap Item.limit?).getLast?.getD defaultLimit
  lines : options.lines ↔ Item.lines ∈ items

/-- Behind some items no further one begins with the arguments that are left, or none is left and there was
no path. -/
inductive Breaks (items : List Item) : List String → UsageError → Prop
  | missingDepth : Breaks items ["--max-depth"] .missingDepth
  | invalidDepth {value : String} {rest : List String} (h : ∀ limit, ¬ IsDepth value limit) :
      Breaks items ("--max-depth" :: value :: rest) (.invalidDepth value)
  | unknownOption {argument : String} {rest : List String} (h : ¬ IsPath argument) (hl : argument ≠ "--lines")
      (hd : argument ≠ "--max-depth") : Breaks items (argument :: rest) (.unknownOption argument)
  | unexpectedArgument {argument : String} {rest : List String} (h : IsPath argument)
      (hp : items.filterMap Item.path? ≠ []) : Breaks items (argument :: rest) (.unexpectedArgument argument)
  | missingPath (hp : items.filterMap Item.path? = []) : Breaks items [] .missingPath

section Arguments
variable {argument value : String} {depth : Nat}

theorem foldl_digits (digits : List Char) :
    digits.foldl (fun depth c => depth * 10 + (c.toNat - '0'.toNat)) 0 = Nat.ofDigitChars 10 digits 0 := by
  simp only [Nat.ofDigitChars, Nat.mul_comm]

/-- What is read of digits is their value where it is in bounds. -/
theorem ite_digits_eq_some {digits : List Char} :
    (if !digits.isEmpty && digits.all Char.isDigit && 0 < Nat.ofDigitChars 10 digits 0 &&
        Nat.ofDigitChars 10 digits 0 < UInt64.size then some (Nat.ofDigitChars 10 digits 0) else none) = some depth ↔
      (digits ≠ [] ∧ (∀ c ∈ digits, c.isDigit) ∧ Nat.ofDigitChars 10 digits 0 = depth) ∧
        1 ≤ depth ∧ depth ≤ 2 ^ 64 - 1 := by
  simp only [Option.ite_none_right_eq_some, Option.some.injEq, Bool.and_eq_true, Bool.not_eq_true',
    List.isEmpty_eq_false_iff, List.all_eq_true, decide_eq_true_eq, UInt64.size]
  constructor
  · rintro ⟨⟨⟨⟨hne, hd⟩, hpos⟩, hlt⟩, rfl⟩
    exact ⟨⟨hne, hd, rfl⟩, hpos, by omega⟩
  · rintro ⟨⟨hne, hd, rfl⟩, hpos, hle⟩
    exact ⟨⟨⟨⟨hne, hd⟩, hpos⟩, by omega⟩, rfl⟩

theorem depth?_eq_some : depth? value = some depth ↔ IsDepth value depth := by
  unfold depth?
  simp only [foldl_digits]
  rw [ite_digits_eq_some]
  constructor
  · rintro ⟨h, hbounds⟩
    refine ⟨⟨_, ?_, h⟩, hbounds⟩
    split
    · next hplus => exact .inr hplus
    · exact .inl rfl
  · rintro ⟨⟨digits, hv | hv, hne, hd, hvalue⟩, hbounds⟩
    · rw [hv]
      refine ⟨?_, hbounds⟩
      split
      · next tail =>
        -- a plus sign is no digit
        have hplus := hd '+' List.mem_cons_self
        exact absurd hplus (by decide)
      · exact ⟨hne, hd, hvalue⟩
    · rw [hv]
      exact ⟨⟨hne, hd, hvalue⟩, hbounds⟩

theorem depth?_eq_none : depth? value = none ↔ ∀ limit, ¬ IsDepth value limit := by
  simp only [← depth?_eq_some, ← Option.eq_none_iff_forall_ne_some]

theorem isOption_iff : isOption argument ↔ ¬ IsPath argument := by
  simp [isOption, IsPath]

theorem IsPath.ne_lines (h : IsPath argument) : argument ≠ "--lines" :=
  fun he => isOption_iff.mp (by rw [he]; decide) h

theorem IsPath.ne_maxDepth (h : IsPath argument) : argument ≠ "--max-depth" :=
  fun he => isOption_iff.mp (by rw [he]; decide) h

end Arguments

/-! ## Reading items -/

theorem Item.arguments_ne_nil (item : Item) : item.arguments ≠ [] := by
  cases item <;> simp [arguments]

section Reading
variable {path : Option String} {limit : Nat} {lines : Bool} {items : List Item} {rest : List String}

theorem readFrom_lines : readFrom path limit lines ("--lines" :: rest) = readFrom path limit true rest := by
  rw [readFrom.eq_def]
  simp

theorem readFrom_depth {value : String} {depth : Nat} (h : IsDepth value depth) :
    readFrom path limit lines ("--max-depth" :: value :: rest) = readFrom path depth lines rest := by
  rw [readFrom.eq_def]
  simp [depth?_eq_some.mpr h]

theorem readFrom_path {argument : String} (h : IsPath argument) :
    readFrom path limit lines (argument :: rest) =
      if path.isSome then .error (.unexpectedArgument argument) else readFrom (some argument) limit lines rest := by
  have ho : isOption argument = false := by simpa using fun ho => isOption_iff.mp ho h
  rw [readFrom.eq_def]
  simp [h.ne_lines, h.ne_maxDepth, ho]

/-- What is read so far takes up a valid item, unless it is one more path. -/
theorem readFrom_item {item : Item} (h : item.Valid) (hp : path = none ∨ item.path? = none) :
    readFrom path limit lines (item.arguments ++ rest) =
      readFrom (path.or item.path?) (item.limit?.getD limit) (lines || item = .lines) rest := by
  cases item with
  | lines => simp [Item.arguments, Item.path?, Item.limit?, readFrom_lines]
  | depth value depth => simp [Item.arguments, Item.path?, Item.limit?, readFrom_depth h]
  | path argument =>
    obtain rfl : path = none := by simpa [Item.path?] using hp
    simp [Item.arguments, Item.path?, Item.limit?, readFrom_path h]

theorem readFrom_items (hv : ∀ item ∈ items, item.Valid)
    (hp : (path.toList ++ items.filterMap Item.path?).length ≤ 1) :
    readFrom path limit lines (items.flatMap Item.arguments ++ rest) =
      readFrom (path.or (items.filterMap Item.path?).head?) ((items.filterMap Item.limit?).getLast?.getD limit)
        (lines || Item.lines ∈ items) rest := by
  induction items generalizing path limit lines with
  | nil => simp
  | cons item items ih =>
    obtain ⟨hitem, hrest⟩ := List.forall_mem_cons.mp hv
    have hfree : path = none ∨ item.path? = none := by
      cases path <;> cases hi : item.path? <;> simp_all
    have hleft : ((path.or item.path?).toList ++ items.filterMap Item.path?).length ≤ 1 := by
      cases path <;> cases hi : item.path? <;> simp_all
    rw [List.flatMap_cons, List.append_assoc, readFrom_item hitem hfree, ih hrest hleft]
    congr 1
    · cases path <;> cases hi : item.path? <;> simp_all
    · cases item <;> simp [Item.limit?, List.getLast?_cons]
    · simp [eq_comm, Bool.or_assoc]

theorem readFrom_breaks {error : UsageError} (h : Breaks items rest error) :
    readFrom (items.filterMap Item.path?).head? limit lines rest = .error error := by
  cases h with
  | missingDepth => rfl
  | invalidDepth hv =>
    rw [readFrom.eq_def]
    simp [depth?_eq_none.mpr hv]
  | unknownOption h hl hd =>
    rw [readFrom.eq_def]
    simp [hl, hd, isOption_iff.mpr h]
  | unexpectedArgument h hp =>
    rw [readFrom_path h, if_pos (Option.isSome_iff_ne_none.mpr (mt List.head?_eq_none_iff.mp hp))]
  | missingPath hp =>
    rw [hp]
    rfl

theorem readFrom_front (items : List Item) (rest : List String) :
    (rest = [] ∧ items.filterMap Item.path? ≠ []) ∨ (∃ error, Breaks items rest error) ∨
      ∃ (item : Item) (rest' : List String), item.Valid ∧
        (items.filterMap Item.path? = [] ∨ item.path? = none) ∧ rest = item.arguments ++ rest' := by
  match rest with
  | [] =>
    by_cases hp : items.filterMap Item.path? = []
    · exact .inr (.inl ⟨_, .missingPath hp⟩)
    · exact .inl ⟨rfl, hp⟩
  | argument :: rest =>
    refine .inr ?_
    by_cases hl : argument = "--lines"
    · exact .inr ⟨.lines, rest, trivial, .inr rfl, by rw [hl]; rfl⟩
    by_cases hd : argument = "--max-depth"
    · subst hd
      match rest with
      | [] => exact .inl ⟨_, .missingDepth⟩
      | value :: rest =>
        by_cases hv : ∃ limit, IsDepth value limit
        · obtain ⟨limit, hv⟩ := hv
          exact .inr ⟨.depth value limit, rest, hv, .inr rfl, rfl⟩
        · exact .inl ⟨_, .invalidDepth (not_exists.mp hv)⟩
    by_cases hpath : IsPath argument
    · by_cases hp : items.filterMap Item.path? = []
      · exact .inr ⟨.path argument, rest, hpath, .inl hp, rfl⟩
      · exact .inl ⟨_, .unexpectedArgument hpath hp⟩
    · exact .inl ⟨_, .unknownOption hpath hl hd⟩

/-- Behind items that were read, more are read until nothing is left or they break. -/
theorem exists_items (hv : ∀ item ∈ items, item.Valid) (hp : (items.filterMap Item.path?).length ≤ 1) :
    ∃ (items' : List Item) (rest' : List String), (∀ item ∈ items', item.Valid) ∧
      (items'.filterMap Item.path?).length ≤ 1 ∧
      items.flatMap Item.arguments ++ rest = items'.flatMap Item.arguments ++ rest' ∧
      ((rest' = [] ∧ items'.filterMap Item.path? ≠ []) ∨ ∃ error, Breaks items' rest' error) := by
  induction hn : rest.length using Nat.strongRecOn generalizing items rest with
  | ind n ih =>
    subst hn
    obtain hend | hbreaks | ⟨item, left, hitem, hfree, rfl⟩ := readFrom_front items rest
    · exact ⟨items, rest, hv, hp, rfl, .inl hend⟩
    · exact ⟨items, rest, hv, hp, rfl, .inr hbreaks⟩
    · have hv' : ∀ item' ∈ items ++ [item], item'.Valid := by
        simpa [or_imp, forall_and] using ⟨hv, hitem⟩
      have hp' : ((items ++ [item]).filterMap Item.path?).length ≤ 1 := by
        rcases hfree with hfree | hfree
        · rw [List.filterMap_append, hfree]
          exact List.length_filterMap_le _ _
        · simpa [List.filterMap_cons, hfree] using hp
      have hshorter : left.length < (item.arguments ++ left).length := by
        simpa [Nat.pos_iff_ne_zero] using item.arguments_ne_nil
      obtain ⟨items', rest', hvalid, hpaths, harguments, hends⟩ := ih _ hshorter hv' hp' rfl
      refine ⟨items', rest', hvalid, hpaths, ?_, hends⟩
      rw [← harguments]
      simp

end Reading

/-! ## Items are told apart -/

section Items
variable {items items' : List Item}

theorem Item.front_unique {item item' : Item} {rest rest' : List String} (h : item.Valid) (h' : item'.Valid)
    (he : item.arguments ++ rest = item'.arguments ++ rest') : item = item' ∧ rest = rest' := by
  match item, item' with
  | .lines, .lines => simpa [arguments] using he
  | .path argument, .path argument' => simpa [arguments] using he
  | .depth value limit, .depth value' limit' =>
    obtain ⟨rfl, rfl⟩ : value = value' ∧ rest = rest' := by simpa [arguments] using he
    have hlimit : some limit = some limit' := (depth?_eq_some.mpr h).symm.trans (depth?_eq_some.mpr h')
    simpa using hlimit
  | .lines, .depth .. => simp [arguments] at he
  | .depth .., .lines => simp [arguments] at he
  | .lines, .path _ => exact absurd (List.cons.inj he).1.symm (IsPath.ne_lines h')
  | .path _, .lines => exact absurd (List.cons.inj he).1 (IsPath.ne_lines h)
  | .depth .., .path _ => exact absurd (List.cons.inj he).1.symm (IsPath.ne_maxDepth h')
  | .path _, .depth .. => exact absurd (List.cons.inj he).1 (IsPath.ne_maxDepth h)

theorem items_unique (hv : ∀ item ∈ items, item.Valid) (hv' : ∀ item ∈ items', item.Valid)
    (he : items.flatMap Item.arguments = items'.flatMap Item.arguments) : items = items' := by
  induction items generalizing items' with
  | nil =>
    cases items' with
    | nil => rfl
    | cons item' items' => simp [Item.arguments_ne_nil] at he
  | cons item items ih =>
    cases items' with
    | nil => simp [Item.arguments_ne_nil] at he
    | cons item' items' =>
      obtain ⟨h, hs⟩ := List.forall_mem_cons.mp hv
      obtain ⟨h', hs'⟩ := List.forall_mem_cons.mp hv'
      obtain ⟨rfl, hrest⟩ := Item.front_unique h h' (by simpa using he)
      rw [ih hs hs' hrest]

end Items

/-! ## Options and errors -/

section Results
variable {items : List Item} {rest : List String}

theorem ofArguments_given {options : Options} (hv : ∀ item ∈ items, item.Valid) (h : options.Given items) :
    Options.ofArguments (items.flatMap Item.arguments) = .ok options := by
  have hread : readFrom none defaultLimit false (items.flatMap Item.arguments ++ []) = _ :=
    readFrom_items hv (by simp [h.path])
  rw [List.append_nil] at hread
  rw [Options.ofArguments, hread, h.path, ← h.limit]
  simp [readFrom, ← h.lines]

theorem ofArguments_breaks {error : UsageError} (hv : ∀ item ∈ items, item.Valid)
    (hp : (items.filterMap Item.path?).length ≤ 1) (h : Breaks items rest error) :
    Options.ofArguments (items.flatMap Item.arguments ++ rest) = .error error := by
  rw [Options.ofArguments, readFrom_items hv (by simpa using hp), Option.none_or]
  exact readFrom_breaks h

/-- Every list of arguments gives options by its items, or it breaks behind some of them. -/
theorem given_or_breaks (arguments : List String) : ∃ items : List Item, (∀ item ∈ items, item.Valid) ∧
    ((∃ options : Options, options.Given items ∧ arguments = items.flatMap Item.arguments) ∨
      (items.filterMap Item.path?).length ≤ 1 ∧ ∃ rest error, Breaks items rest error ∧
        arguments = items.flatMap Item.arguments ++ rest) := by
  obtain ⟨items, rest, hv, hp, harguments, ⟨rfl, hne⟩ | ⟨error, h⟩⟩ :=
    @exists_items [] arguments (by simp) (by simp)
  · obtain ⟨path, hpath⟩ : ∃ path, items.filterMap Item.path? = [path] :=
      List.length_eq_one_iff.mp (Nat.le_antisymm hp (List.length_pos_iff.mpr hne))
    refine ⟨items, hv, .inl ⟨⟨path, _, decide (Item.lines ∈ items)⟩, ⟨hpath, rfl, by simp⟩, ?_⟩⟩
    simpa using harguments
  · exact ⟨items, hv, .inr ⟨hp, rest, error, h, by simpa using harguments⟩⟩

theorem ofArguments_eq_ok {arguments : List String} {options : Options} :
    Options.ofArguments arguments = .ok options ↔ ∃ items : List Item, (∀ item ∈ items, item.Valid) ∧
      options.Given items ∧ arguments = items.flatMap Item.arguments := by
  refine ⟨fun h => ?_, fun ⟨items, hv, hgiven, he⟩ => he ▸ ofArguments_given hv hgiven⟩
  obtain ⟨items, hv, ⟨options', hgiven, rfl⟩ | ⟨hp, rest, error, hbreaks, rfl⟩⟩ := given_or_breaks arguments
  · obtain rfl : options' = options := Except.ok.inj ((ofArguments_given hv hgiven).symm.trans h)
    exact ⟨items, hv, hgiven, rfl⟩
  · cases (ofArguments_breaks hv hp hbreaks).symm.trans h

theorem ofArguments_eq_error {arguments : List String} {error : UsageError} :
    Options.ofArguments arguments = .error error ↔
      ∃ (items : List Item) (rest : List String), (∀ item ∈ items, item.Valid) ∧
        (items.filterMap Item.path?).length ≤ 1 ∧ Breaks items rest error ∧
        arguments = items.flatMap Item.arguments ++ rest := by
  refine ⟨fun h => ?_, fun ⟨items, rest, hv, hp, hbreaks, he⟩ => he ▸ ofArguments_breaks hv hp hbreaks⟩
  obtain ⟨items, hv, ⟨options, hgiven, rfl⟩ | ⟨hp, rest, error', hbreaks, rfl⟩⟩ := given_or_breaks arguments
  · cases (ofArguments_given hv hgiven).symm.trans h
  · obtain rfl : error' = error := Except.error.inj ((ofArguments_breaks hv hp hbreaks).symm.trans h)
    exact ⟨items, rest, hv, hp, hbreaks, rfl⟩

theorem Options.Given.perm {options : Options} {items' : List Item} (h : options.Given items)
    (hp : items.Perm items') (hl : items.filterMap Item.limit? = items'.filterMap Item.limit?) :
    options.Given items' where
  path := List.singleton_perm.mp (h.path ▸ hp.filterMap _) |>.symm
  limit := hl ▸ h.limit
  lines := h.lines.trans hp.mem_iff

end Results

/-- Arguments give options when they are a row of valid items with one path among them, and the row is
the only one. In every other case the error is that of the first item that breaks the row. -/
theorem ofArguments_exact (arguments : List String) :
    (∀ options, Options.ofArguments arguments = .ok options ↔
      ∃! items : List Item, (∀ item ∈ items, item.Valid) ∧ options.Given items ∧
        arguments = items.flatMap Item.arguments) ∧
    (∀ error, Options.ofArguments arguments = .error error ↔
      ∃ (items : List Item) (rest : List String), (∀ item ∈ items, item.Valid) ∧
        (items.filterMap Item.path?).length ≤ 1 ∧ Breaks items rest error ∧
        arguments = items.flatMap Item.arguments ++ rest) ∧
    (Options.ofArguments arguments = .error .missingPath ↔
      ∃ items : List Item, (∀ item ∈ items, item.Valid) ∧ items.filterMap Item.path? = [] ∧
        arguments = items.flatMap Item.arguments) ∧
    ∀ items items' : List Item, (∀ item ∈ items, item.Valid) → arguments = items.flatMap Item.arguments →
      items.Perm items' → items.filterMap Item.limit? = items'.filterMap Item.limit? →
      ∀ options, Options.ofArguments arguments = .ok options →
        Options.ofArguments (items'.flatMap Item.arguments) = .ok options := by
  refine ⟨fun options => ⟨fun h => ?_, fun ⟨items, h, _⟩ => ofArguments_eq_ok.mpr ⟨items, h⟩⟩,
    fun _ => ofArguments_eq_error, ⟨fun h => ?_, ?_⟩, ?_⟩
  · obtain ⟨items, hv, hgiven, he⟩ := ofArguments_eq_ok.mp h
    exact ⟨items, ⟨hv, hgiven, he⟩, fun items' ⟨hv', _, he'⟩ => items_unique hv' hv (he'.symm.trans he)⟩
  · obtain ⟨items, rest, hv, -, hbreaks, he⟩ := ofArguments_eq_error.mp h
    cases hbreaks with
    | missingPath hp => exact ⟨items, hv, hp, by simpa using he⟩
  · rintro ⟨items, hv, hp, he⟩
    exact ofArguments_eq_error.mpr ⟨items, [], hv, by simp [hp], .missingPath hp, by simpa using he⟩
  · intro items items' hv he hperm hlimit options h
    obtain ⟨items₀, hv₀, hgiven, he₀⟩ := ofArguments_eq_ok.mp h
    obtain rfl : items₀ = items := items_unique hv₀ hv (he₀.symm.trans he)
    exact ofArguments_given (fun item hi => hv item (hperm.mem_iff.mpr hi)) (hgiven.perm hperm hlimit)

end LuaSyntax.CommandLine
