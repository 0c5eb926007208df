import Blockscript.CommandLine.Options
import Mathlib.Data.List.Induction

/-!
# The grammar of the command line

Arguments are read from left to right and acted upon at once. Said without that order, they are
groups: the flag for outlines, the option for the permitted nesting together with its value, and at
most one file. The groups may stand in any order. Reading ends with the last of them, at a word that
asks for help or for the version, or at the first thing that cannot be a group.

What is wrong can be told from where reading ends, because a group is never read in two ways: no
value of the nesting option and no file is a word that stands for an option. The value belongs to its
option whatever it looks like, so it cannot ask for help or be a file.

## Main definitions

* `CommandLine.Group` : the groups, and their arguments (`CommandLine.written`).
* `CommandLine.IsDepth`, `CommandLine.IsFile` : the values and the files that are allowed.
* `CommandLine.IsSequence` : groups that may stand together.
* `CommandLine.Sets` : the options that groups stand for.
* `CommandLine.Breaks`, `CommandLine.Ends` : how reading may end after groups, and with which answer.
* `CommandLine.Splits` : arguments as groups and an end.

## Main results

* `CommandLine.depth?_eq_some_iff` : the values that are read are those that are allowed.
* `CommandLine.parseFrom_args`, `CommandLine.parseFrom_written_append` : one group is read, and then
  any number of them.
* `CommandLine.splits_parseFrom` : all arguments are groups and an end, and the answer is the one for
  that end.
* `CommandLine.parse_eq_iff_ends` : the headline.
-/

namespace Blockscript.CommandLine

/-! ### Groups of arguments -/

/-- Arguments that belong together. -/
inductive Group where
  /-- The flag that asks for outlines. -/
  | outline
  /-- The option for the permitted nesting, with its value. -/
  | depth (value : String)
  /-- A file. -/
  | file (path : String)

namespace Group

/-- The arguments of a group. -/
def args : Group → List String
  | outline => ["--dump-ast"]
  | depth value => ["--max-depth", value]
  | file path => [path]

/-- The value in a group. -/
def value? : Group → Option String
  | depth value => some value
  | _ => none

/-- The file that a group is. -/
def path? : Group → Option String
  | file path => some path
  | _ => none

end Group

/-- The arguments of groups, one after the other. -/
def written (groups : List Group) : List String :=
  groups.flatMap Group.args

/-- The values of the nesting option. -/
def depths (groups : List Group) : List String :=
  groups.filterMap Group.value?

/-- The files. -/
def files (groups : List Group) : List String :=
  groups.filterMap Group.path?

/-- A decimal literal for a number that is not zero and fits in 64 bits, perhaps with a plus sign. -/
def IsDepth (value : String) (n : Nat) : Prop :=
  ∃ digits, (value.toList = digits ∨ value.toList = '+' :: digits) ∧ digits ≠ [] ∧
    (∀ c ∈ digits, c.isDigit) ∧ Nat.ofDigitChars 10 digits 0 = n ∧ 0 < n ∧ n < Nat.pow 2 64

/-- Anything is a file that does not begin with a minus sign, and so is a minus sign alone. -/
def IsFile (arg : String) : Prop :=
  arg.toList.head? ≠ some '-' ∨ arg = "-"

/-- The value or the file in a group is allowed. -/
def Group.Valid : Group → Prop
  | .outline => True
  | .depth value => ∃ n, IsDepth value n
  | .file path => IsFile path

/-- Groups that may stand together, in any order. -/
structure IsSequence (groups : List Group) : Prop where
  /-- Each of them may stand there. -/
  valid : ∀ g ∈ groups, g.Valid
  /-- There is at most one file. -/
  length_files_le : (files groups).length ≤ 1

/-- The options that groups stand for. -/
structure Sets (groups : List Group) (options : Options) : Prop where
  /-- Outlines are shown if the flag for them is there. -/
  showOutline_iff : options.showOutline = true ↔ .outline ∈ groups
  /-- Without a value, the permitted nesting is the usual one. -/
  limit_eq : depths groups = [] → options.limit = 256
  /-- Otherwise the last value counts. -/
  isDepth_limit : ∀ value, (depths groups).getLast? = some value → IsDepth value options.limit

/-- The words that stand for options. -/
def optionWords : List String :=
  ["-h", "--help", "-V", "--version", "--dump-ast", "--max-depth"]

/-- After groups with the given files there is something that cannot be a group, and what is wrong
with it. -/
inductive Breaks (paths : List String) : List String → UsageError → Prop where
  /-- The nesting option comes last, without a value. -/
  | missingValue : Breaks paths ["--max-depth"] (.missingValue "--max-depth")
  /-- The nesting option has a value that is not allowed. -/
  | invalidValue {value : String} {rest : List String} (h : ∀ n, ¬IsDepth value n) :
    Breaks paths ("--max-depth" :: value :: rest) (.invalidValue "--max-depth" value)
  /-- What looks like an option is none. -/
  | unknownOption {arg : String} {rest : List String} (h : ¬IsFile arg) (hword : arg ∉ optionWords) :
    Breaks paths (arg :: rest) (.unknownOption arg)
  /-- There is a second file. -/
  | unexpectedArgument {arg : String} {rest : List String} (h : IsFile arg) (hpaths : paths ≠ []) :
    Breaks paths (arg :: rest) (.unexpectedArgument arg)

/-- How reading may end after groups with the given files, which stand for the given options, and the
answer that there is then. -/
inductive Ends (options : Options) : (paths rest : List String) →
    Except UsageError (Options × Task) → Prop where
  /-- There are no more arguments, and there was no file. -/
  | repl : Ends options [] [] (.ok (options, .repl))
  /-- There are no more arguments, and there was a file. -/
  | file {path : String} : Ends options [path] [] (.ok (options, .file path))
  /-- Help is asked for, and anything may follow. -/
  | help {paths : List String} {word : String} {rest : List String}
    (h : word = "-h" ∨ word = "--help") : Ends options paths (word :: rest) (.ok (options, .help))
  /-- The version is asked for, and anything may follow. -/
  | version {paths : List String} {word : String} {rest : List String}
    (h : word = "-V" ∨ word = "--version") :
    Ends options paths (word :: rest) (.ok (options, .version))
  /-- There is something that cannot be a group. -/
  | error {paths rest : List String} {e : UsageError} (h : Breaks paths rest e) :
    Ends options paths rest (.error e)

variable {options : Options} {file : Option String} {g : Group} {groups : List Group}
  {value : String} {args rest : List String} {result : Except UsageError (Options × Task)}

/-! ### Values and files -/

/-- The number is read from what is left of the value without a plus sign. -/
theorem depth?_eq_some_iff_of_digits {digits : List Char} {n : Nat}
    (h : value.toList = '+' :: digits ∨ value.toList = digits ∧ digits.head? ≠ some '+') :
    depth? value = some n ↔ digits ≠ [] ∧ (∀ c ∈ digits, c.isDigit) ∧
      Nat.ofDigitChars 10 digits 0 = n ∧ 0 < n ∧ n < Nat.pow 2 64 := by
  have hdepth : depth? value =
      if digits ≠ [] ∧ digits.all Char.isDigit ∧ 0 < Decimal.ofDigits digits ∧
        Decimal.ofDigits digits < Nat.pow 2 64 then some (Decimal.ofDigits digits) else none := by
    rcases h with h | ⟨h, hhead⟩
    · simp only [depth?, h]
    · simp only [depth?, h]
      split
      · simp at hhead
      · rfl
  rw [hdepth, show Nat.ofDigitChars 10 digits 0 = Decimal.ofDigits digits from rfl]
  rw [Option.ite_none_right_eq_some, Option.some.injEq, List.all_eq_true]
  constructor
  · rintro ⟨⟨hne, hall, hpos, hlt⟩, rfl⟩
    exact ⟨hne, hall, rfl, hpos, hlt⟩
  · rintro ⟨hne, hall, rfl, hpos, hlt⟩
    exact ⟨⟨hne, hall, hpos, hlt⟩, rfl⟩

/-- The values that are read are those that are allowed. -/
theorem depth?_eq_some_iff {n : Nat} : depth? value = some n ↔ IsDepth value n := by
  by_cases hplus : value.toList.head? = some '+'
  · obtain ⟨digits, hdigits⟩ := List.head?_eq_some_iff.mp hplus
    rw [depth?_eq_some_iff_of_digits (.inl hdigits)]
    constructor
    · exact fun h => ⟨digits, .inr hdigits, h⟩
    · rintro ⟨digits', hvalue | hvalue, h⟩
      · -- A plus sign is no digit.
        have hdigit : '+'.isDigit := h.2.1 '+' (by rw [← hvalue, hdigits]; exact List.mem_cons_self)
        exact absurd hdigit (by decide)
      · obtain rfl := (List.cons.inj (hdigits.symm.trans hvalue)).2
        exact h
  · rw [depth?_eq_some_iff_of_digits (.inr ⟨rfl, hplus⟩)]
    constructor
    · exact fun h => ⟨_, .inl rfl, h⟩
    · rintro ⟨digits, rfl | hvalue, h⟩
      · exact h
      · simp [hvalue] at hplus

theorem depth?_eq_none_iff : depth? value = none ↔ ∀ n, ¬IsDepth value n := by
  rw [Option.eq_none_iff_forall_ne_some]
  exact forall_congr' fun n => not_congr depth?_eq_some_iff

theorem isOption_eq_false_iff {arg : String} : isOption arg = false ↔ IsFile arg := by
  have hminus : arg = "-" ↔ arg.toList = ['-'] := String.toList_inj.symm
  rw [IsFile, hminus, isOption]
  split
  · next h => simp [h]
  · next h =>
    cases harg : arg.toList with
    | nil => simp
    | cons c cs =>
      cases cs with
      | nil => simpa using (Decidable.em (c = '-')).symm
      | cons d ds =>
        have hc : c ≠ '-' := fun hc => h d ds (hc ▸ harg)
        simp [hc]

theorem notMem_optionWords_iff {arg : String} :
    arg ∉ optionWords ↔ ¬(arg = "-h" ∨ arg = "--help") ∧ ¬(arg = "-V" ∨ arg = "--version") ∧
      ¬arg = "--dump-ast" ∧ ¬arg = "--max-depth" := by
  simp [optionWords, not_or, and_assoc]

/-- No file is a word that stands for an option. -/
theorem IsFile.notMem_optionWords {arg : String} (h : IsFile arg) : arg ∉ optionWords := by
  have hall : ∀ word ∈ optionWords, isOption word = true := by decide
  intro hmem
  rw [← isOption_eq_false_iff, hall arg hmem] at h
  cases h

/-! ### Groups are read one by one -/

/-- The options after a group is read. -/
def Group.set (options : Options) : Group → Options
  | .outline => { options with showOutline := true }
  | .depth value => { options with limit := (depth? value).getD options.limit }
  | .file _ => options

theorem written_cons (g : Group) (groups : List Group) :
    written (g :: groups) = g.args ++ written groups :=
  List.flatMap_cons

theorem files_cons (g : Group) (groups : List Group) :
    files (g :: groups) = g.path?.toList ++ files groups := by
  cases g <;> rfl

/-- One step: a group sets its option, or is the file. -/
theorem parseFrom_args (hg : g.Valid) {paths : List String}
    (hpaths : (paths ++ g.path?.toList).length ≤ 1) (rest : List String) :
    parseFrom options paths.head? (g.args ++ rest) =
      parseFrom (g.set options) (paths ++ g.path?.toList).head? rest := by
  rw [parseFrom.eq_def]
  cases g with
  | outline => simp [Group.args, Group.set, Group.path?]
  | depth value =>
    obtain ⟨n, hn⟩ := hg
    simp [Group.args, Group.set, Group.path?, depth?_eq_some_iff.mpr hn]
  | file path =>
    obtain rfl : paths = [] := by simpa [Group.path?] using hpaths
    obtain ⟨hhelp, hversion, houtline, hdepth⟩ :=
      notMem_optionWords_iff.mp (IsFile.notMem_optionWords hg)
    have hoption : isOption path = false := isOption_eq_false_iff.mpr hg
    simp [Group.args, Group.set, Group.path?, hhelp, hversion, houtline, hdepth, hoption]

/-- Groups are read one by one, whatever follows them. -/
theorem parseFrom_written_append (hgroups : ∀ g ∈ groups, g.Valid) {paths : List String}
    (hpaths : (paths ++ files groups).length ≤ 1) (rest : List String) :
    parseFrom options paths.head? (written groups ++ rest) =
      parseFrom (groups.foldl Group.set options) (paths ++ files groups).head? rest := by
  induction groups generalizing options paths with
  | nil => simp [written, files]
  | cons g groups ih =>
    obtain ⟨hg, hgroups⟩ := List.forall_mem_cons.mp hgroups
    rw [files_cons, ← List.append_assoc] at hpaths ⊢
    have hfirst : (paths ++ g.path?.toList).length ≤ 1 := by
      rw [List.length_append] at hpaths
      omega
    rw [written_cons, List.append_assoc, parseFrom_args hg hfirst, ih hgroups hpaths]
    rfl

/-! ### Where reading ends -/

theorem Ends.parseFrom_eq {paths : List String} (h : Ends options paths rest result) :
    parseFrom options paths.head? rest = result := by
  rw [parseFrom.eq_def]
  cases h with
  | repl => rfl
  | file => rfl
  | help h => simp [h]
  | version h => rcases h with rfl | rfl <;> simp
  | error h =>
    cases h with
    | missingValue => simp
    | invalidValue h => simp [depth?_eq_none_iff.mpr h]
    | unknownOption h hword =>
      obtain ⟨hhelp, hversion, houtline, hdepth⟩ := notMem_optionWords_iff.mp hword
      have hoption := mt isOption_eq_false_iff.mp h
      simp [hhelp, hversion, houtline, hdepth, hoption]
    | unexpectedArgument h hpaths =>
      obtain ⟨hhelp, hversion, houtline, hdepth⟩ :=
        notMem_optionWords_iff.mp h.notMem_optionWords
      have hoption := isOption_eq_false_iff.mpr h
      obtain ⟨path, more, rfl⟩ := List.exists_cons_of_ne_nil hpaths
      simp [hhelp, hversion, houtline, hdepth, hoption]

/-- The arguments are groups, after which reading ends with the given answer. -/
def Splits (options : Options) (paths args : List String)
    (result : Except UsageError (Options × Task)) : Prop :=
  ∃ groups rest, args = written groups ++ rest ∧ (∀ g ∈ groups, g.Valid) ∧
    (paths ++ files groups).length ≤ 1 ∧
    Ends (groups.foldl Group.set options) (paths ++ files groups) rest result

theorem Ends.splits {paths : List String} (h : Ends options paths rest result)
    (hpaths : paths.length ≤ 1) : Splits options paths rest result :=
  ⟨[], rest, rfl, by simp, by simpa [files] using hpaths, by simpa [files] using h⟩

theorem Splits.cons {paths : List String} (hg : g.Valid)
    (h : Splits (g.set options) (paths ++ g.path?.toList) args result) :
    Splits options paths (g.args ++ args) result := by
  obtain ⟨groups, rest, rfl, hgroups, hpaths, hends⟩ := h
  rw [List.append_assoc, ← files_cons] at hpaths hends
  refine ⟨g :: groups, rest, ?_, List.forall_mem_cons.mpr ⟨hg, hgroups⟩, hpaths, hends⟩
  rw [written_cons, List.append_assoc]

/-- **All arguments are groups and an end.** The cases are those of the definition: a group is put in
front of what follows it, and where nothing follows, reading has come to its end. -/
theorem splits_parseFrom (options : Options) (file : Option String) (args : List String) :
    Splits options file.toList args (parseFrom options file args) := by
  have hlen (file : Option String) : file.toList.length ≤ 1 := by cases file <;> simp
  fun_induction parseFrom options file args with
  | case1 options => exact Ends.repl.splits (hlen none)
  | case2 options path => exact Ends.file.splits (hlen (some path))
  | case3 options file arg rest harg => exact (Ends.help harg).splits (hlen file)
  | case4 options file arg rest _ harg => exact (Ends.version harg).splits (hlen file)
  | case5 options file rest _ _ ih =>
    exact Splits.cons (g := .outline) trivial (by simpa [Group.path?, Group.set] using ih)
  | case6 options file => exact (Ends.error .missingValue).splits (hlen file)
  | case7 options file value rest hvalue =>
    exact (Ends.error (.invalidValue (depth?_eq_none_iff.mp hvalue))).splits (hlen file)
  | case8 options file value rest n hvalue _ _ _ ih =>
    refine Splits.cons (g := .depth value) ⟨n, depth?_eq_some_iff.mp hvalue⟩ ?_
    simpa [Group.path?, Group.set, hvalue] using ih
  | case9 options file arg rest hhelp hversion houtline hdepth hoption =>
    have hword := notMem_optionWords_iff.mpr ⟨hhelp, hversion, houtline, hdepth⟩
    have hfile : ¬IsFile arg := by
      rw [← isOption_eq_false_iff, hoption]
      simp
    exact (Ends.error (.unknownOption hfile hword)).splits (hlen file)
  | case10 options arg rest _ _ _ _ hoption ih =>
    have hfile : IsFile arg := isOption_eq_false_iff.mp (by simpa using hoption)
    exact Splits.cons (g := .file arg) hfile ih
  | case11 options arg rest _ _ _ _ hoption path =>
    have hfile : IsFile arg := isOption_eq_false_iff.mp (by simpa using hoption)
    exact (Ends.error (.unexpectedArgument hfile (by simp))).splits (hlen (some path))

/-! ### The options that groups stand for -/

theorem Sets.append (h : Sets groups options) (hg : g.Valid) :
    Sets (groups ++ [g]) (g.set options) := by
  obtain ⟨houtline, hnone, hlast⟩ := h
  cases g with
  | outline =>
    have hdepths : depths (groups ++ [.outline]) = depths groups := by simp [depths, Group.value?]
    exact ⟨by simp [Group.set], hdepths ▸ hnone, hdepths ▸ hlast⟩
  | depth value =>
    obtain ⟨n, hn⟩ := hg
    refine ⟨by simpa [Group.set] using houtline, by simp [depths, Group.value?], ?_⟩
    simp [depths, Group.value?, Group.set, depth?_eq_some_iff.mpr hn, hn]
  | file path =>
    have hdepths : depths (groups ++ [.file path]) = depths groups := by
      simp [depths, Group.value?]
    exact ⟨by simpa [Group.set] using houtline, hdepths ▸ hnone, hdepths ▸ hlast⟩

theorem sets_foldl (h : ∀ g ∈ groups, g.Valid) : Sets groups (groups.foldl Group.set {}) := by
  induction groups using List.reverseRecOn with
  | nil => exact ⟨by simp, fun _ => rfl, by simp [depths]⟩
  | append_singleton groups g ih =>
    obtain ⟨hgroups, hg⟩ := List.forall_mem_append.mp h
    rw [List.foldl_append]
    exact (ih hgroups).append (hg g List.mem_cons_self)

theorem Sets.unique {options' : Options} (h : Sets groups options) (h' : Sets groups options') :
    options = options' := by
  have houtline : options.showOutline = options'.showOutline :=
    Bool.eq_iff_iff.mpr (h.showOutline_iff.trans h'.showOutline_iff.symm)
  have hlimit : options.limit = options'.limit := by
    cases hlast : (depths groups).getLast? with
    | none =>
      have hnone := List.getLast?_eq_none_iff.mp hlast
      rw [h.limit_eq hnone, h'.limit_eq hnone]
    | some value =>
      have hvalue := depth?_eq_some_iff.mpr (h.isDepth_limit value hlast)
      have hvalue' := depth?_eq_some_iff.mpr (h'.isDepth_limit value hlast)
      exact Option.some.inj (hvalue.symm.trans hvalue')
  cases options
  cases options'
  simp_all

/-! ### The grammar -/

theorem IsSequence.parse_append (h : IsSequence groups) (rest : List String) :
    parse (written groups ++ rest) =
      parseFrom (groups.foldl Group.set {}) (files groups).head? rest :=
  have hpaths : ([] ++ files groups).length ≤ 1 := h.length_files_le
  parseFrom_written_append h.valid hpaths rest

/-- Of a value that is allowed, only its number counts. -/
theorem IsSequence.parse_depth (h : IsSequence groups) {n : Nat} (hvalue : IsDepth value n)
    (rest : List String) : parse (written groups ++ "--max-depth" :: value :: rest) =
      parseFrom { groups.foldl Group.set {} with limit := n } (files groups).head? rest := by
  rw [h.parse_append]
  refine (parseFrom_args (g := .depth value) ⟨n, hvalue⟩ ?_ rest).trans ?_
  · simpa [Group.path?] using h.length_files_le
  · simp [Group.path?, Group.set, depth?_eq_some_iff.mpr hvalue]

/-- **The grammar of the command line.** Arguments are groups and an end, which may be an error, and
the answer is the one that goes with the end. However they are divided in this way, that is the
answer. The argument after the nesting option is its value and nothing else: it is refused as a
value, or it counts for the number that it denotes. -/
theorem parse_eq_iff_ends :
    (∀ args result, parse args = result ↔ ∃ groups rest options, IsSequence groups ∧
      args = written groups ++ rest ∧ Sets groups options ∧
      Ends options (files groups) rest result) ∧
    ∀ groups value rest, IsSequence groups →
      ((∀ n, ¬IsDepth value n) ∧ parse (written groups ++ "--max-depth" :: value :: rest) =
        .error (.invalidValue "--max-depth" value)) ∨
      ∃ n, IsDepth value n ∧ ∀ value', IsDepth value' n →
        parse (written groups ++ "--max-depth" :: value' :: rest) =
          parse (written groups ++ "--max-depth" :: value :: rest) := by
  refine ⟨fun args result => ⟨?_, ?_⟩, fun groups value rest hgroups => ?_⟩
  · rintro rfl
    obtain ⟨groups, rest, hargs, hvalid, hfiles, hends⟩ := splits_parseFrom {} none args
    exact ⟨groups, rest, _, ⟨hvalid, hfiles⟩, hargs, sets_foldl hvalid, hends⟩
  · rintro ⟨groups, rest, options, hgroups, rfl, hsets, hends⟩
    obtain rfl := hsets.unique (sets_foldl hgroups.valid)
    rw [hgroups.parse_append, hends.parseFrom_eq]
  · by_cases hvalue : ∃ n, IsDepth value n
    · obtain ⟨n, hn⟩ := hvalue
      refine .inr ⟨n, hn, fun value' hn' => ?_⟩
      rw [hgroups.parse_depth hn', hgroups.parse_depth hn]
    · have hnone := not_exists.mp hvalue
      refine .inl ⟨hnone, ?_⟩
      rw [hgroups.parse_append]
      exact (Ends.error (.invalidValue hnone)).parseFrom_eq

/-- A file whose name is a minus sign, between options that are given twice. -/
def mixed : List Group :=
  [.depth "+064", .outline, .file "-", .outline, .depth "007"]

theorem parse_mixed_ends : IsSequence mixed ∧
    parse (written mixed ++ ["-V", "--fast"]) = .ok (⟨7, true⟩, .version) ∧
    (((∀ n, ¬IsDepth "--help" n) ∧ parse (written mixed ++ ["--max-depth", "--help"]) =
        .error (.invalidValue "--max-depth" "--help")) ∨
      ∃ n, IsDepth "--help" n ∧ ∀ value', IsDepth value' n →
        parse (written mixed ++ ["--max-depth", value']) =
          parse (written mixed ++ ["--max-depth", "--help"])) := by
  have hfirst : IsDepth "+064" 64 := depth?_eq_some_iff.mp (by decide)
  have hlast : IsDepth "007" 7 := depth?_eq_some_iff.mp (by decide)
  have hsequence : IsSequence mixed := by
    refine ⟨?_, by decide⟩
    simpa [mixed, Group.Valid, IsFile] using ⟨⟨64, hfirst⟩, ⟨7, hlast⟩⟩
  have hdepths : depths mixed = ["+064", "007"] := rfl
  have hsets : Sets mixed ⟨7, true⟩ := by
    refine ⟨by simp [mixed], by simp [hdepths], fun value hvalue => ?_⟩
    obtain rfl : "007" = value := by simpa [hdepths] using hvalue
    exact hlast
  obtain ⟨hparse, hvalue⟩ := parse_eq_iff_ends
  refine ⟨hsequence, (hparse _ _).mpr ?_, hvalue mixed "--help" [] hsequence⟩
  exact ⟨mixed, ["-V", "--fast"], ⟨7, true⟩, hsequence, rfl, hsets, .version (.inl rfl)⟩

end Blockscript.CommandLine
