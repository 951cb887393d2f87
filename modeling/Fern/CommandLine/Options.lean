import Fern.Text.Charset
import Fern.Text.Decimal

/-!
# Command line options

Words that begin with a dash are options, up to a word of two dashes and nothing else. A long option
may be cut short as long as only one option begins so, and may carry its value behind an equals
sign. Short options may be run together, and an equals sign behind the first of them is passed over.
A word that begins as no option does, and is a number or has a blank in it, is no option either. One
word may be left over: the script.

Words are sorted into options and others before any of them takes effect; then they take effect one
by one, and the request for help or for the version ends the matter there. Options that are run
together take effect only if all of them are known.
-/

namespace Fern.CommandLine

/-- An option. -/
inductive Flag
  | help
  | interactive
  | entry
  | parse
  | analyze
  | showResult
  | recursionLimit
  | debug
  | version
  deriving DecidableEq, Repr

/-- The spellings of the options. -/
def spellings : List (String × Flag) :=
  [ ("-h", .help), ("--help", .help), ("-i", .interactive), ("--interactive", .interactive),
    ("--entry", .entry), ("--parse", .parse), ("--analyze", .analyze),
    ("--show-result", .showResult), ("--recursion-limit", .recursionLimit), ("--debug", .debug),
    ("--version", .version) ]

/-- Whether an option is followed by a value. -/
def Flag.takesValue : Flag → Bool
  | .entry | .recursionLimit => true
  | _ => false

/-- What the user asks for. The name of the entry function and the limit on the depth of calls can
be taken away, which shows when they are needed. -/
structure Options where
  script : Option String := none
  interactive : Bool := false
  entry : Option String := some "main"
  parse : Bool := false
  analyze : Bool := false
  showResult : Bool := false
  recursionLimit : Option Int := some 200000
  debug : Bool := false
  deriving DecidableEq, Repr, Inhabited

/-- A word of the command line. An option comes with the text attached to it, and it is known
whether a single dash introduced it. -/
inductive Word
  | option (flag : Flag) (single : Bool) (attached : Option String)
  | unknown
  | ambiguous
  | dashes
  | plain (text : String)
  deriving DecidableEq, Repr

/-- Whether a character is a decimal digit of some script. -/
def isDigit (c : Char) : Bool := (Text.digitValue? c).isSome

/-- Whether a word is a number with a minus sign in front. A line break may end it. -/
def isNegativeNumber : List Char → Bool
  | '-' :: rest =>
    let whole := rest.takeWhile isDigit
    match rest.dropWhile isDigit with
    | [] | ['\n'] => !whole.isEmpty
    | '.' :: part =>
      let places := part.takeWhile isDigit
      let behind := part.dropWhile isDigit
      !places.isEmpty && (behind = [] || behind = ['\n'])
    | _ => false
  | _ => false

/-- The text before and behind the first equals sign. -/
def splitEquals : List Char → Option (List Char × List Char)
  | [] => none
  | '=' :: rest => some ([], rest)
  | c :: rest => (splitEquals rest).map fun (before, behind) => (c :: before, behind)

/-- The option with exactly this spelling. -/
def spelled? (word : List Char) : Option Flag := spellings.lookup (String.ofList word)

/-- The options that a word may mean, when it spells none in full. Two dashes introduce the start of
a long option, and a value behind an equals sign; a single dash introduces a short option, with the
rest of the word attached, less an equals sign at its front. -/
def candidates (word : List Char) : List (Flag × Bool × Option String) :=
  match word with
  | '-' :: '-' :: _ =>
    let (start, attached) :=
      match splitEquals word with
      | some (before, behind) => (before, some (String.ofList behind))
      | none => (word, none)
    (spellings.filter fun (spelling, _) => start.isPrefixOf spelling.toList).map
      fun (_, flag) => (flag, false, attached)
  | '-' :: c :: rest =>
    match spelled? ['-', c] with
    | some flag =>
      let attached :=
        match rest with
        | '=' :: behind => behind
        | _ => rest
      [(flag, true, some (String.ofList attached))]
    | none => []
  | _ => []

/-- Sorts one word. -/
def sortWord (text : String) : Word :=
  let word := text.toList
  if text = "--" then .dashes
  else if word.head? ≠ some '-' then .plain text
  else
    match spelled? word with
    | some flag => .option flag (word.length = 2) none
    | none =>
      if word.length = 1 then .plain text
      else
        match candidates word with
        | [(flag, single, attached)] => .option flag single attached
        | _ :: _ :: _ => .ambiguous
        | [] => if isNegativeNumber word || word.contains ' ' then .plain text else .unknown

/-- Sorts the words of a command line. Behind two dashes, every word is plain. -/
def sortWords : List String → List Word
  | [] => []
  | text :: rest =>
    match sortWord text with
    | .dashes => .dashes :: rest.map .plain
    | word => word :: sortWords rest

/-- What a command line comes to. -/
inductive Invocation
  | misuse
  | help
  | version
  | start (options : Options)
  deriving DecidableEq, Repr

/-- The number that digits of any script denote, between which single underscores may stand, read
on from the number that the digits before them denote. -/
def magnitudeFrom? (before : Nat) : List Char → Option Nat
  | [] => none
  | c :: rest =>
    match Text.digitValue? c, rest with
    | none, _ => none
    | some digit, [] => some (before * 10 + digit)
    | some digit, '_' :: next => magnitudeFrom? (before * 10 + digit) next
    | some digit, next => magnitudeFrom? (before * 10 + digit) next

/-- Whether a character may stand around a number. The separators among the control characters may
not. -/
def isNumberBlank (c : Char) : Bool := Text.isBlank c && !('\x1c' ≤ c && c ≤ '\x1f')

/-- The integer that a value of an option denotes. Blanks around it do not count. -/
def integerValue? (text : String) : Option Int :=
  let inner := (text.toList.dropWhile isNumberBlank).reverse.dropWhile isNumberBlank |>.reverse
  match inner with
  | '-' :: rest => (magnitudeFrom? 0 rest).map fun n => -(n : Int)
  | '+' :: rest => (magnitudeFrom? 0 rest).map fun n => (n : Int)
  | rest => (magnitudeFrom? 0 rest).map fun n => (n : Int)

/-- The effect of an option without a value. -/
def Options.switch (options : Options) : Flag → Options
  | .interactive => { options with interactive := true }
  | .parse => { options with parse := true }
  | .analyze => { options with analyze := true }
  | .showResult => { options with showResult := true }
  | .debug => { options with debug := true }
  | _ => options

/-- The effect of an option with a value. Two dashes for a value take away what the option sets. -/
def Options.set? (options : Options) (value : String) : Flag → Option Options
  | .entry => some { options with entry := if value = "--" then none else some value }
  | .recursionLimit =>
    if value = "--" then some { options with recursionLimit := none }
    else (integerValue? value).map fun limit => { options with recursionLimit := some limit }
  | _ => none

/-- The short options whose letters are run together, if each letter is one. -/
def shortRun? (letters : List Char) : Option (List Flag) :=
  letters.mapM fun c => spelled? ['-', c]

/-- Lets switches take effect one by one. -/
def switchAll (options : Options) : List Flag → Options ⊕ Invocation
  | [] => .inl options
  | .help :: _ => .inr .help
  | .version :: _ => .inr .version
  | flag :: rest => switchAll (options.switch flag) rest

/-- Where the reading of words stands: what they have come to so far, whether the place of the
script has been passed, and whether a word was left over. -/
structure Progress where
  options : Options := {}
  passed : Bool := false
  leftover : Bool := false

/-- Passes the place of the script with a plain word. -/
def Progress.plain (progress : Progress) (text : String) : Progress :=
  if progress.passed then { progress with leftover := true }
  else { progress with options := { progress.options with script := some text }, passed := true }

/-- Lets the words take effect in order. Two dashes belong to the script that stands beside them;
once the script has been passed, further dashes are a word too many. -/
def takeEffect (progress : Progress) : List Word → Invocation
  | [] => if progress.leftover then .misuse else .start progress.options
  | .plain text :: .dashes :: rest =>
    takeEffect (progress.plain text) rest
  | .plain text :: rest => takeEffect (progress.plain text) rest
  | .dashes :: .plain text :: rest => takeEffect (progress.plain text) rest
  | .dashes :: rest =>
    takeEffect { progress with leftover := progress.leftover || progress.passed, passed := true }
      rest
  | .unknown :: rest => takeEffect { progress with leftover := true } rest
  | .ambiguous :: _ => .misuse
  | .option flag single attached :: rest =>
    if flag.takesValue then
      match attached, rest with
      | some value, rest =>
        match progress.options.set? value flag with
        | some options => takeEffect { progress with options } rest
        | none => .misuse
      | none, .plain value :: rest =>
        match progress.options.set? value flag with
        | some options => takeEffect { progress with options } rest
        | none => .misuse
      | none, _ => .misuse
    else
      match attached with
      | none =>
        match switchAll progress.options [flag] with
        | .inl options => takeEffect { progress with options } rest
        | .inr invocation => invocation
      | some text =>
        if !single || text.isEmpty then .misuse
        else
          match shortRun? text.toList with
          | none => .misuse
          | some flags =>
            match switchAll progress.options (flag :: flags) with
            | .inl options => takeEffect { progress with options } rest
            | .inr invocation => invocation

/-- What the words of a command line come to. -/
def Invocation.ofWords (words : List String) : Invocation :=
  let sorted := sortWords words
  if sorted.contains .ambiguous then .misuse else takeEffect {} sorted

end Fern.CommandLine
