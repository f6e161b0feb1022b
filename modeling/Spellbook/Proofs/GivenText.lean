import Spellbook.Proofs.Forms
import Spellbook.Proofs.Reading
import Spellbook.Workload

/-!
# Reading a given text

The reader makes the lexicons of all states before it reads anything, which is too much for a proof
that only looks at one text. `Lexicon.nextOf` makes none: it tries the terminals that the state
knows, one by one. `Reader.way` goes so from token to token, and gives the way of the reader through
the text besides the tree (`Reader.reads_of_way`). So `Tree.isReadWith` decides what a given text is
read as, and looks at how it is cut.
-/

namespace Spellbook

namespace Tree

mutual

def same : Tree → Tree → Bool
  | .node l ts, .node l' ts' => l == l' && sameAll ts ts'
  | .token m s, .token m' s' => m == m' && s == s'
  | .absent, .absent => true
  | _, _ => false

def sameAll : List Tree → List Tree → Bool
  | [], [] => true
  | t :: ts, t' :: ts' => same t t' && sameAll ts ts'
  | _, _ => false

end

mutual

/-- Trees that are found to be the same are equal. -/
theorem eq_of_same {t t' : Tree} (h : t.same t' = true) : t = t' := by
  match t, t' with
  | .node l ts, .node l' ts' =>
    rw [same, Bool.and_eq_true] at h
    rw [eq_of_beq h.1, eq_of_sameAll h.2]
  | .token m s, .token m' s' =>
    rw [same, Bool.and_eq_true] at h
    rw [eq_of_beq h.1, eq_of_beq h.2]
  | .absent, .absent => rfl
  | .node _ _, .token _ _ | .node _ _, .absent | .token _ _, .node _ _ => cases h
  | .token _ _, .absent | .absent, .node _ _ | .absent, .token _ _ => cases h

theorem eq_of_sameAll {ts ts' : List Tree} (h : sameAll ts ts' = true) : ts = ts' := by
  match ts, ts' with
  | [], [] => rfl
  | t :: ts, t' :: ts' =>
    rw [sameAll, Bool.and_eq_true] at h
    rw [eq_of_same h.1, eq_of_sameAll h.2]
  | [], _ :: _ | _ :: _, [] => cases h

end

end Tree

/-! ## One token at a time -/

namespace Lexicon

section
variable (state : Nat)

/-- Whether a state knows a terminal: it is skipped, or can come next. -/
def knows (t : Terminal) : Bool := t.isSkipped || (action? state t).isSome

/-- Whether a state tries a terminal: it knows it, and no class that absorbs it. -/
def tries (t : Terminal) : Bool :=
  knows state t && !Terminal.trialOrder.any fun s => s.absorbs t && knows state s

/-- The first of some terminals that fits and is tried. -/
def fitOf : List Terminal → List Char → Option (Terminal × List Char × List Char)
  | [], _ => none
  | t :: ts, cs =>
    bif knows state t then
      match t.pattern.split cs with
      | some (lexeme, rest) => bif tries state t then some (t, lexeme, rest) else fitOf ts cs
      | none => fitOf ts cs
    else fitOf ts cs

def classOf (t : Terminal) (lexeme : List Char) : Terminal :=
  (Terminal.trialOrder.find? fun s =>
    t.absorbs s && knows state s && s.spelling? == some lexeme).getD t

/-- What is skipped at the start of a text, and the token that comes then, if any, with what follows
it. -/
def nextOf : Nat → List Char → Option (List Char × Option (Lexeme × List Char))
  | _, [] => some ([], none)
  | 0, _ => none
  | fuel + 1, cs =>
    match fitOf state Terminal.trialOrder cs with
    | some (t, lexeme, rest) =>
      bif t.isSkipped then (nextOf fuel rest).map fun (gap, next) => (lexeme ++ gap, next)
      else some ([], some (⟨classOf state t lexeme, lexeme⟩, rest))
    | none => none

end

variable {state : Nat}

theorem pool_ofState : (ofState state).pool = Terminal.trialOrder.filter (knows state) := by
  refine List.filter_congr fun t ht => ?_
  rw [knows, possible, Bool.eq_iff_iff]
  simp [ht]

/-- The terminals that a state tries, without building its lexer. -/
theorem tried_ofState : (ofState state).tried = Terminal.trialOrder.filter (tries state) := by
  show (ofState state).pool.filter (fun s => !(ofState state).pool.any (·.absorbs s)) = _
  rw [pool_ofState, List.filter_filter]
  refine List.filter_congr fun t _ => ?_
  simp only [List.any_filter, tries, Bool.and_comm]

/-- The fit that is found in the order of trial is the first fit of the state. -/
theorem fitOf_eq (ts : List Terminal) (cs : List Char) :
    fitOf state ts cs = firstFit (ts.filter (tries state)) cs := by
  induction ts with
  | nil => rfl
  | cons t ts ih =>
    rw [fitOf, List.filter_cons, ih, tries]
    cases knows state t with
    | false => rfl
    | true =>
      cases Terminal.trialOrder.any fun s => s.absorbs t && knows state s with
      | false => rfl
      | true => cases t.pattern.split cs <;> rfl

theorem classOf_eq (t : Terminal) (lexeme : List Char) :
    classOf state t lexeme = (ofState state).classify t lexeme := by
  rw [classOf, classify, pool_ofState, List.find?_filter]
  congr 2
  funext s
  rw [Bool.and_comm (t.absorbs s), Bool.and_assoc, Bool.decide_and, Bool.decide_coe,
    Bool.decide_coe]

section
variable {fuel : Nat} {cs gap rest : List Char} {l : Lexeme}

/-- If nothing comes next, the text is one gap. -/
theorem skips_of_nextOf (h : nextOf state fuel cs = some (gap, none)) :
    (ofState state).Skips cs gap [] := by
  fun_induction nextOf state fuel cs generalizing gap with
  | case1 => cases h; exact .done
  | case2 => cases h
  | case3 fuel cs _ t lexeme rest hfit hskipped ih =>
    obtain ⟨⟨gap', next⟩, hnext, heq⟩ := Option.map_eq_some_iff.mp h
    cases heq
    rw [fitOf_eq, ← tried_ofState] at hfit
    exact .skip hfit hskipped (ih hnext)
  | case4 => cases h
  | case5 => cases h

/-- The lexeme that comes next stands behind the gap. -/
theorem startsWith_of_nextOf (h : nextOf state fuel cs = some (gap, some (l, rest))) :
    (ofState state).Skips cs gap (l.text ++ rest) ∧
    (ofState state).StartsWith (l.text ++ rest) l rest := by
  fun_induction nextOf state fuel cs generalizing gap with
  | case1 => cases h
  | case2 => cases h
  | case3 fuel cs _ t lexeme rest' hfit hskipped ih =>
    obtain ⟨⟨gap', next⟩, hnext, heq⟩ := Option.map_eq_some_iff.mp h
    cases heq
    rw [fitOf_eq, ← tried_ofState] at hfit
    obtain ⟨hskips, hstarts⟩ := ih hnext
    exact ⟨.skip hfit hskipped hskips, hstarts⟩
  | case4 fuel cs _ t lexeme rest' hfit hskipped =>
    cases h
    rw [fitOf_eq, ← tried_ofState] at hfit
    obtain ⟨rfl, -⟩ := firstFit_append hfit
    exact ⟨.done, t, hfit, hskipped, classOf_eq t lexeme⟩
  | case5 => cases h

end

end Lexicon

namespace Reader

/-- Goes through what comes next, and on with `again`. -/
def wayNext (again : Stack → List Char → Option (Cut × Tree)) (stack : Stack) :
    List Char × Option (Lexeme × List Char) → Option (Cut × Tree)
  | (gap, some (l, rest)) =>
    (feed l.terminal l.text (patience stack) stack).stack?.bind fun stack =>
      (again stack rest).map fun (c, t) => (.cons ⟨gap, l⟩ c, t)
  | (gap, none) =>
    match feed .textEnd [] (patience stack) stack with
    | .complete t => some (.tail gap, t)
    | _ => none

/-- The way of the reader from a stack through a text of at most `fuel` tokens, and the tree that it
makes. -/
def way : Nat → Stack → List Char → Option (Cut × Tree)
  | 0, _, _ => none
  | fuel + 1, stack, cs => (Lexicon.nextOf (top stack) fuel cs).bind (wayNext (way fuel) stack)

theorem stack?_eq_some {o : Outcome} {stack : Stack} :
    o.stack? = some stack ↔ o = .taken stack := by
  cases o <;> simp [Outcome.stack?]

/-- A way through the table is a reading of the text. -/
theorem reads_of_way {fuel : Nat} {stack : Stack} {cs : List Char} {c : Cut} {t : Tree}
    (h : way fuel stack cs = some (c, t)) : c.text = cs ∧ Reads stack c t := by
  induction fuel generalizing stack cs c t with
  | zero => cases h
  | succ fuel ih =>
    obtain ⟨⟨gap, next⟩, hnext, hgoes⟩ := Option.bind_eq_some_iff.mp h
    cases next with
    | some token =>
      obtain ⟨l, rest⟩ := token
      obtain ⟨stack', hfeed, hgoes⟩ := Option.bind_eq_some_iff.mp hgoes
      obtain ⟨⟨c', t'⟩, hway, heq⟩ := Option.map_eq_some_iff.mp hgoes
      cases heq
      obtain ⟨rfl, hreads⟩ := ih hway
      obtain ⟨hskips, hstarts⟩ := Lexicon.startsWith_of_nextOf hnext
      obtain rfl := hskips.eq_append
      exact ⟨rfl, .take hskips hstarts (stack?_eq_some.mp hfeed) hreads⟩
    | none =>
      have hskips := Lexicon.skips_of_nextOf hnext
      obtain rfl := hskips.eq_append
      rw [List.append_nil] at hskips ⊢
      rw [wayNext] at hgoes
      cases hfeed : feed .textEnd [] (patience stack) stack with
      | complete t' =>
        rw [hfeed] at hgoes
        cases hgoes
        exact ⟨rfl, .finish hskips hfeed⟩
      | taken stack' => rw [hfeed] at hgoes; cases hgoes
      | refused => rw [hfeed] at hgoes; cases hgoes

end Reader

/-- Whether characters, of at most 1000 tokens, are read as the tree, and pass a check of how they
are cut. -/
def Tree.isReadFrom (check : Cut → Bool) (t : Tree) (cs : List Char) : Bool :=
  match Reader.way 1000 [] cs with
  | some (c, t') => t'.same t && check c
  | none => false

/-- Whether a text is read as the tree, and passes a check of how it is cut. -/
def Tree.isReadWith (check : Cut → Bool) (t : Tree) (source : String) : Bool :=
  t.isReadFrom check (plainBreaks source.toList)

/-- A tree that is read with a check has a cut that passes the check. -/
theorem Tree.reads_of_isReadWith {check : Cut → Bool} {t : Tree} {source : String}
    (h : t.isReadWith check source = true) :
    ∃ c, c.text = plainBreaks source.toList ∧ check c = true ∧ Reader.Reads [] c t := by
  rw [Tree.isReadWith, Tree.isReadFrom] at h
  split at h
  · next c t' hway =>
    rw [Bool.and_eq_true] at h
    obtain ⟨htext, hreads⟩ := Reader.reads_of_way hway
    exact ⟨c, htext, h.2, Tree.eq_of_same h.1 ▸ hreads⟩
  · cases h

/-- A tree that is read with a check is read. -/
theorem Tree.read_of_isReadWith {check : Cut → Bool} {t : Tree} {source : String}
    (h : t.isReadWith check source = true) : Tree.read source = .ok t := by
  obtain ⟨c, htext, -, hreads⟩ := Tree.reads_of_isReadWith h
  rw [Tree.read, ← htext]
  exact Reader.read_of_reads hreads

/-- A check may be weakened. -/
theorem Tree.isReadWith_of_imp {check check' : Cut → Bool} {t : Tree} {source : String}
    (himp : ∀ c, check c = true → check' c = true) (h : t.isReadWith check source = true) :
    t.isReadWith check' source = true := by
  rw [Tree.isReadWith, Tree.isReadFrom] at h ⊢
  split at h
  · next c t' hway =>
    rw [Bool.and_eq_true] at h
    rw [h.1, himp c h.2]
    rfl
  · cases h

/-! ## Places

A given text can have places, which are numerals that others are to be put for. -/

/-- The numeral that stands where another is to be put. -/
def Lexeme.place : Lexeme := ⟨.whole, ['9']⟩

namespace Cut

/-- Whether there is a blank before the first place. -/
def isSteady : Cut → Bool
  | tail _ => true
  | cons s c => !s.gap.isEmpty || (s.lexeme != .place && c.isSteady)

/-- What is checked of a token and what follows it: no digit or point follows a place, and any other
token goes without the digit of places and is cut off whatever is put there. -/
def tokenOk (l : Lexeme) (c : Cut) : Bool :=
  if l = .place then c.isSteady && c.text.head?.all fun b => !isDigit b && b != '.'
  else !l.text.contains '9' && (c.isSteady || l == ⟨.openCall, ['~', ':']⟩)

def hasPlaces : Nesting → Cut → Bool
  | _, tail cs => cs.all isBlank
  | n, cons s c =>
    !n.inText && s.gap.all isBlank && tokenOk s.lexeme c && c.hasPlaces (n.after s.lexeme.terminal)

end Cut

/-! ## Given programs

The tables are worked out anew by each theorem that runs the reader, so one theorem reads all the
programs of `GivenText`. -/

/-- A program that casts an incantation without arguments. -/
def castProgram (f : String) : Tree :=
  .form .start [.form .cast [.leaf .castWord "cast", .named f, .absent]]

/-- A program that casts `f` before it declares `f` and `g`. -/
def castFirst : List Tree :=
  [.form .cast [.leaf .castWord "cast", .named "f", .absent],
    .form .incantation [.leaf .incantation "incantation", .named "f", .absent, .form .block []],
    .form .incantation [.leaf .incantation "incantation", .named "g", .absent, .form .block []]]

/-- A choice whose second branch is a bare `proclaim`. -/
def leavingChoice : Tree :=
  .form .foretell [.leaf .foretell "foretell", .leaf .truth "Falsehood", .form .block [],
    .leaf .shift "shift",
    .leaf .truth "Truthsung", .form .block [.form .proclaim [.leaf .proclaim "proclaim", .absent]],
    .leaf .resolve "resolve", .form .block []]

def leavingBody : Tree := .form .block [leavingChoice]

/-- The declaration of `f` with that body. -/
def leavingDeclaration : Tree :=
  .form .incantation [.leaf .incantation "incantation", .named "f", .absent, leavingBody]

def interpolated (parts : List Tree) : Tree :=
  .form .interpolation (.leaf .openText "$\"" :: (parts ++ [.leaf .quote "\""]))

def prosePart (text : String) : Tree := .form .part [.leaf .prose text]

/-- The program that reveals a text of prose, cut into its tokens. -/
def proseCut (body : List Char) : Cut :=
  .cons ⟨[], ⟨.reveal, "reveal".toList⟩⟩
    (.cons ⟨[' '], ⟨.openText, ['$', '"']⟩⟩ (.cons ⟨[], ⟨.prose, body⟩⟩
    (.cons ⟨[], ⟨.quote, ['"']⟩⟩ (.cons ⟨[], ⟨.semicolon, [';']⟩⟩ (.tail [])))))

def revealProgram (e : Tree) : Tree := .form .start [.form .reveal [.leaf .reveal "reveal", e]]

/-- The product of a rune and its past. -/
def timesPast (x : String) : Tree :=
  .form .product [.form .rune [.leaf .name x], .leaf .mulOp "*", .form .past [.leaf .name x,
    .form .yore [.leaf .fromWord "from", .leaf .days "days", .leaf .ofWord "of",
      .leaf .yore "yore"]]]

/-- A program that declares a rune by a numeral and reveals it. -/
def numeralProgram (w : String) : Tree :=
  .form .start [.form .declare [.leaf .rune "rune", .named "x", .leaf .whole w],
    .form .reveal [.leaf .reveal "reveal", .form .rune [.leaf .name "x"]]]

/-- A rune transmuted to a text and back to a whole number. -/
def throughText : Tree :=
  .form .transmute [.leaf .transmute "transmute",
    .form .group [.form .transmute [.leaf .transmute "transmute",
    .form .rune [.leaf .name "x"], .leaf .arrow "->", .leaf .dataType "string"]], .leaf .arrow "->",
      .leaf .dataType "int"]

def squaresProgram (turns : String) : Tree :=
  .form .start [.form .declare [.leaf .rune "rune", .named "acc", .leaf .whole "0"],
    .form .rangeCycle [.leaf .cycle "cycle",
      .form .range [.named "i", .leaf .whole "1", .leaf .whole turns, .absent],
      .form .block
        [.form .assign [.named "acc", .form .sum [.form .sum [.form .rune [.leaf .name "acc"],
        .leaf .addOp "+",
        .form .product [.form .rune [.leaf .name "i"], .leaf .mulOp "*", .leaf .whole "2"]],
        .leaf .addOp "-", .leaf .whole "1"]]]]]

/-- The cut of a text into tokens, each with the blanks before it. -/
def Cut.ofTokens : List (String × Terminal × String) → Cut
  | [] => .tail []
  | (gap, t, text) :: tokens => .cons ⟨gap.toList, ⟨t, text.toList⟩⟩ (ofTokens tokens)

def squaresCut : Cut := .ofTokens
  [("", .rune, "rune"), (" ", .name, "acc"), ("", .equals, "="), ("", .whole, "0"),
    ("", .semicolon, ";"), ("", .cycle, "cycle"), ("", .openParen, "("), ("", .name, "i"),
    (" ", .whole, "1"), ("", .arrow, "->"), (" ", .whole, "9"), ("", .closeParen, ")"),
    ("", .openBrace, "\x7b"), ("", .name, "acc"), ("", .equals, "="), ("", .name, "acc"),
    ("", .addOp, "+"), ("", .name, "i"), ("", .mulOp, "*"), ("", .whole, "2"), ("", .addOp, "-"),
    ("", .whole, "1"), ("", .semicolon, ";"), ("", .closeBrace, "\x7d")]

/-- The tree of `incantation f parameters body`. -/
def declared (f : String) (parameters : Tree) (body : List Tree) : Tree :=
  .form .incantation [.leaf .incantation "incantation", .named f, parameters, .form .block body]

/-- The tree of `proclaim e`. -/
def proclaimed (e : Tree) : Tree := .form .proclaim [.leaf .proclaim "proclaim", e]

/-- The tree of `cast f arguments`. -/
def castOf (f : String) (arguments : Tree) : Tree :=
  .form .cast [.leaf .castWord "cast", .named f, arguments]

/-- The call of `fib` with so much less. -/
def fibLess (k : String) : Tree :=
  castOf "fib"
    (.form .arguments
      [.form .sum [.form .rune [.leaf .name "n"], .leaf .addOp "-", .leaf .whole k]])

/-- The choice with which `fib` ends early. -/
def fibChoice : Tree :=
  .form .foretell [.leaf .foretell "foretell",
    .form .comparison [.form .rune [.leaf .name "n"], .leaf .compareOp "<=", .leaf .whole "1"],
    .form .block [proclaimed (.form .rune [.leaf .name "n"])], .absent, .absent]

/-- The body of `fib`. -/
def fibBody : List Tree :=
  [fibChoice, proclaimed (.form .sum [fibLess "1", .leaf .addOp "+", fibLess "2"])]

/-- The instructions of the workload of calls. -/
def functionsParts (depth : String) : List Tree :=
  [declared "fib" (.form .parameters [.named "n"]) fibBody,
    declared "area" (.form .parameters [.named "a", .named "b"])
      [proclaimed
        (.form .product [.form .rune [.leaf .name "a"], .leaf .mulOp "*",
          .form .rune [.leaf .name "b"]])],
    declared "unit" .absent [proclaimed (.leaf .whole "1")],
    .form .declare [.leaf .rune "rune", .named "v1",
      castOf "fib" (.form .arguments [.leaf .whole depth])],
    .form .declare [.leaf .rune "rune", .named "v2",
      castOf "area" (.form .arguments [.leaf .whole "2", .leaf .whole "7"])],
    .form .declare [.leaf .rune "rune", .named "v3", castOf "unit" .absent]]

/-- The workload of calls. -/
def functionsProgram (depth : String) : Tree := .form .start (functionsParts depth)

/-- The texts that are read here. -/
inductive GivenText where
  | cast
  | castFirst
  | leaving
  | emptyText
  | prose
  | timesPast
  | numeral
  | throughText
  | squares
  | functions

namespace GivenText

def all : List GivenText :=
  [.cast, .castFirst, .leaving, .emptyText, .prose, .timesPast, .numeral, .throughText,
    .squares, .functions]

theorem mem_all (g : GivenText) : g ∈ all := by cases g <;> simp [all]

/-- The text itself. Those with places have the numeral `9` there. -/
def text : GivenText → String
  | .cast => "cast f ~::~;"
  | .castFirst => "cast f ~::~;incantation f\x7b\x7dincantation g\x7b\x7d"
  | .leaving =>
    "incantation f\x7bforetell (Falsehood)\x7b\x7dshift (Truthsung)\x7bproclaim;\x7dresolve\x7b\x7d\x7d"
  | .emptyText => "reveal $\"\";"
  | .prose => "reveal $\"a\";"
  | .timesPast => "reveal n * n from days of yore;"
  | .numeral => "rune x = 9; reveal x;"
  | .throughText => "reveal transmute (transmute x -> string) -> int;"
  | .squares => Workload.squaresSpell "9"
  | .functions => Workload.functionsSpell "9"

def tree : GivenText → Tree
  | .cast => castProgram "f"
  | .castFirst => .form .start Spellbook.castFirst
  | .leaving => .form .start [leavingDeclaration]
  | .emptyText => revealProgram (interpolated [])
  | .prose => revealProgram (interpolated [prosePart "a"])
  | .timesPast => revealProgram (Spellbook.timesPast "n")
  | .numeral => numeralProgram "9"
  | .throughText => revealProgram Spellbook.throughText
  | .squares => squaresProgram "9"
  | .functions => functionsProgram "9"

def check : GivenText → Cut → Bool
  | .prose => (· == proseCut ['a'])
  | .numeral | .functions => Cut.hasPlaces []
  | .squares => fun c => c == squaresCut && c.hasPlaces []
  | _ => fun _ => true

/-- The given texts, read together in the kernel. -/
theorem isReadWith_of_mem : ∀ g ∈ all, g.tree.isReadWith g.check g.text = true := by
  simp only [all, List.forall_mem_cons, text, tree, check]
  -- the kernel is slow at the characters of a long text, so it is given the lines
  unfold Tree.isReadWith Workload.squaresSpell Workload.functionsSpell
  repeat rewrite [String.toList_append]
  decide +kernel

theorem isReadWith (g : GivenText) : g.tree.isReadWith g.check g.text = true :=
  isReadWith_of_mem g g.mem_all

/-- A given text is read as its tree. -/
theorem read (g : GivenText) : Tree.read g.text = .ok g.tree := Tree.read_of_isReadWith g.isReadWith

end GivenText

theorem read_castProgram : Tree.read "cast f ~::~;" = .ok (castProgram "f") := GivenText.cast.read

theorem read_leavingDeclaration : Tree.read
    "incantation f\x7bforetell (Falsehood)\x7b\x7dshift (Truthsung)\x7bproclaim;\x7dresolve\x7b\x7d\x7d" =
    .ok (.form .start [leavingDeclaration]) :=
  GivenText.leaving.read

end Spellbook
