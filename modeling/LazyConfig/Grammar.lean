import LazyConfig.Grammar.Strings
import LazyConfig.Parser.Lexeme
set_option autoImplicit false

/-!
# The grammar

What a program is, said without a reader.  Each statement here is about a value, a text
and what is left of the text behind the value: the value is derived from the characters in
between.  A rule of the grammar is a relation with a constructor for each alternative.

Lexemes are as long as they can be: a word ends where no character of a word follows, no
longer delimiter starts where one stands, and a blank is passed over to its end.  The blank
behind a lexeme belongs to it, so a rule starts and ends where no blank does.  Only the body
of a string is read character by character.

Applications and keys associate to the left, and a function or a `let` extends as far right
as the grammar lets it.  How a text must be read where several alternatives start alike is
nowhere said: that is for a reader to find out.
-/

namespace LazyConfig.Grammar

/-! ## Blanks, words and delimiters -/

/-- A blank, which may be empty, up to a character that is none of it.  A comment runs up to
the end of its line or of the text. -/
inductive Blank : List Char → List Char → Prop where
  | stop {t : List Char} (h : ∀ x ∈ t.head?, isSpace x = false ∧ x ≠ '#') : Blank t t
  | space {x : Char} {t u : List Char} (hx : isSpace x = true) (h : Blank t u) :
      Blank (x :: t) u
  | comment {line t u : List Char} (hline : '\n' ∉ line) (h : Blank t u) :
      Blank ('#' :: (line ++ '\n' :: t)) u
  | lastComment {line : List Char} (hline : '\n' ∉ line) : Blank ('#' :: line) []

/-- The longest word at the start of a text. -/
structure WordAt (word : List Char) (t u : List Char) : Prop where
  /-- The text starts with it. -/
  text : t = word ++ u
  /-- It has a character. -/
  nonempty : word ≠ []
  /-- It has only characters of names. -/
  chars : ∀ x ∈ word, isNameChar x = true
  /-- No such character follows. -/
  ends : ∀ x ∈ u.head?, isNameChar x = false

/-- The longest delimiter at the start of a text. -/
structure DelimiterAt (lexicon : Lexicon) (d : String) (t u : List Char) : Prop where
  /-- The lexicon lists it. -/
  listed : d ∈ lexicon.delimiters
  /-- The text starts with it. -/
  text : t = d.toList ++ u
  /-- The text starts with none that is longer. -/
  longest : ∀ d' ∈ lexicon.delimiters, d'.toList <+: t → d'.length ≤ d.length

/-- A delimiter and the blank behind it. -/
def Delimiter (lexicon : Lexicon) (d : String) (t u : List Char) : Prop :=
  ∃ v, DelimiterAt lexicon d t v ∧ Blank v u

/-- A keyword and the blank behind it. -/
def Keyword (lexicon : Lexicon) (k : String) (t u : List Char) : Prop :=
  k ∈ lexicon.keywords ∧ ∃ v, WordAt k.toList t v ∧ Blank v u

/-- A name, which is a word but no keyword, and the blank behind it. -/
def Identifier (lexicon : Lexicon) (x : Name) (t u : List Char) : Prop :=
  x.text ∉ lexicon.keywords ∧ ∃ v, WordAt x.text.toList t v ∧ Blank v u

/-! ## Characters of strings -/

/-- The mark that opens a string. -/
inductive OpeningMark : Parser.Opening → List Char → List Char → Prop where
  | quoted (t : List Char) : OpeningMark .quoted ('"' :: t) t
  | indented (t : List Char) : OpeningMark .indented ('\'' :: '\'' :: t) t

/-- The mark that closes a string. -/
inductive ClosingMark : Parser.Opening → List Char → List Char → Prop where
  | quoted (t : List Char) : ClosingMark .quoted ('"' :: t) t
  | indented (t : List Char) : ClosingMark .indented ('\'' :: '\'' :: t) t

/-- Characters of a string and how they are written.  In double quotation marks a backslash
stands in front of a character that it changes or takes the meaning from, or in front of the
two characters of an antiquote; any other character stands for itself, unless it starts
a mark or an antiquote. -/
inductive Written : Parser.Opening → List Char → List Char → List Char → Prop where
  | escapedHole (t : List Char) :
      Written .quoted ['$', '\x7b'] ('\\' :: '$' :: '\x7b' :: t) t
  | escaped {c d : Char} {t : List Char} (h : Escape c d)
      (hhole : c = '$' → t.head? ≠ some '\x7b') : Written .quoted [d] ('\\' :: c :: t) t
  | quoted {c : Char} {t : List Char} (hmark : c ≠ '"') (hescape : c ≠ '\\')
      (hhole : c = '$' → t.head? ≠ some '\x7b') : Written .quoted [c] (c :: t) t
  | indented {c : Char} {t : List Char} (hmark : c = '\'' → t.head? ≠ some '\'')
      (hhole : c = '$' → t.head? ≠ some '\x7b') : Written .indented [c] (c :: t) t

/-! ## Rules -/

/-- What is left of the layout of indented strings: a text, and what the text comes to. -/
abbrev Stripping := List (Char ⊕ Expr) → List (Char ⊕ Expr) → Prop

/-- What a string comes to, from what its body reads as. -/
inductive Content (strip : Stripping) :
    Parser.Opening → List (Char ⊕ Expr) → List (Char ⊕ Expr) → Prop where
  | quoted (l : List (Char ⊕ Expr)) : Content strip .quoted l l
  | indented {l m : List (Char ⊕ Expr)} (h : strip l m) : Content strip .indented l m

section

variable (lexicon : Lexicon) (strip : Stripping)

mutual

/-- `expr := lambda | let | apply` -/
inductive Expression : Expr → List Char → List Char → Prop where
  | lambda {e : Expr} {t u : List Char} (h : Lambda e t u) : Expression e t u
  | letIn {e : Expr} {t u : List Char} (h : LetIn e t u) : Expression e t u
  | application {e : Expr} {t u : List Char} (h : Application e t u) : Expression e t u

/-- `lambda := param ':' expr` -/
inductive Lambda : Expr → List Char → List Char → Prop where
  | mk {p : Param Expr} {e : Expr} {t u v w : List Char} (param : Parameter p t u)
      (colon : Delimiter lexicon ":" u v) (body : Expression e v w) : Lambda (.lambda p e) t w

/-- `param := IDENT | pattern | IDENT '@' pattern` -/
inductive Parameter : Param Expr → List Char → List Char → Prop where
  | name {x : Name} {t u : List Char} (name : Identifier lexicon x t u) : Parameter (.name x) t u
  | pattern {p : Pattern Expr} {t u : List Char} (pattern : DictPattern p t u) :
      Parameter (.pattern p) t u
  | both {x : Name} {p : Pattern Expr} {t u v w : List Char} (name : Identifier lexicon x t u)
      (mark : Delimiter lexicon "@" u v) (pattern : DictPattern p v w) : Parameter (.both x p) t w

/-- `pattern := '{' '}' | '{' fields '}'`, where no two fields have one name -/
inductive DictPattern : Pattern Expr → List Char → List Char → Prop where
  | empty {t u v : List Char} (opens : Delimiter lexicon "\x7b" t u)
      (closes : Delimiter lexicon "\x7d" u v) : DictPattern ⟨[], false⟩ t v
  | fields {fields : List (Field Expr)} {ellipsis : Bool} {t u v w : List Char}
      (opens : Delimiter lexicon "\x7b" t u) (list : Fields fields ellipsis u v)
      (closes : Delimiter lexicon "\x7d" v w) (distinct : Pattern.Distinct ⟨fields, ellipsis⟩) :
      DictPattern ⟨fields, ellipsis⟩ t w

/-- `fields := '...' | item | item ',' fields` -/
inductive Fields : List (Field Expr) → Bool → List Char → List Char → Prop where
  | ellipsis {t u : List Char} (h : Delimiter lexicon "..." t u) : Fields [] true t u
  | last {field : Field Expr} {t u : List Char} (item : Item field t u) : Fields [field] false t u
  | more {field : Field Expr} {fields : List (Field Expr)} {ellipsis : Bool}
      {t u v w : List Char} (item : Item field t u) (comma : Delimiter lexicon "," u v)
      (others : Fields fields ellipsis v w) : Fields (field :: fields) ellipsis t w

/-- `item := IDENT | IDENT '?' expr` -/
inductive Item : Field Expr → List Char → List Char → Prop where
  | plain {x : Name} {t u : List Char} (name : Identifier lexicon x t u) : Item ⟨x, none⟩ t u
  | default {x : Name} {e : Expr} {t u v w : List Char} (name : Identifier lexicon x t u)
      (mark : Delimiter lexicon "?" u v) (default : Expression e v w) : Item ⟨x, some e⟩ t w

/-- `let := 'let' letbinds 'in' expr` -/
inductive LetIn : Expr → List Char → List Char → Prop where
  | mk {bs : List (Binding String Expr)} {e : Expr} {t u v w z : List Char}
      (keyword : Keyword lexicon "let" t u) (bindings : LetBindings bs u v)
      (mark : Keyword lexicon "in" v w) (body : Expression e w z) : LetIn (.letIn bs e) t z

/-- `letbinds := (letbind ';')*` -/
inductive LetBindings : List (Binding String Expr) → List Char → List Char → Prop where
  | nil (t : List Char) : LetBindings [] t t
  | cons {b : Binding String Expr} {bs : List (Binding String Expr)} {t u v w : List Char}
      (first : LetBinding b t u) (semicolon : Delimiter lexicon ";" u v)
      (others : LetBindings bs v w) : LetBindings (b :: bs) t w

/-- `letbind := inherit | name '=' expr` -/
inductive LetBinding : Binding String Expr → List Char → List Char → Prop where
  | inherit {source : Option Expr} {names : List String} {t u : List Char}
      (h : Inheritance source names t u) : LetBinding (.inherit source names) t u
  | equation {x : String} {e : Expr} {t u v w : List Char} (name : StaticName x t u)
      (mark : Delimiter lexicon "=" u v) (value : Expression e v w) : LetBinding (.equation x e) t w

/-- `apply := dotted+ [lambda]`, to the left -/
inductive Application : Expr → List Char → List Char → Prop where
  | operands {e : Expr} {t u : List Char} (h : Operands e t u) : Application e t u
  | lastLambda {f a : Expr} {t u v : List Char} (function : Operands f t u)
      (argument : Lambda a u v) : Application (.apply f a) t v

/-- `operands := dotted | operands dotted` -/
inductive Operands : Expr → List Char → List Char → Prop where
  | first {e : Expr} {t u : List Char} (h : Dotted e t u) : Operands e t u
  | next {f a : Expr} {t u v : List Char} (function : Operands f t u) (argument : Dotted a u v) :
      Operands (.apply f a) t v

/-- `dotted := primary | dotted '.' key` -/
inductive Dotted : Expr → List Char → List Char → Prop where
  | primary {e : Expr} {t u : List Char} (h : Primary e t u) : Dotted e t u
  | key {e k : Expr} {t u v w : List Char} (subject : Dotted e t u)
      (dot : Delimiter lexicon "." u v) (key : Key k v w) : Dotted (.dot e k) t w

/-- `primary := string | '[' items ']' | dict | IDENT | '(' expr ')'` -/
inductive Primary : Expr → List Char → List Char → Prop where
  | string {s : Template Expr} {t u : List Char} (h : StringLiteral s t u) : Primary (.str s) t u
  | list {es : List Expr} {t u v w : List Char} (opens : Delimiter lexicon "[" t u)
      (items : Items es u v) (closes : Delimiter lexicon "]" v w) : Primary (.list es) t w
  | dict {bs : List (Binding Expr Expr)} {t u : List Char} (h : Dict bs t u) :
      Primary (.dict false bs) t u
  | recursiveDict {bs : List (Binding Expr Expr)} {t u v : List Char}
      (keyword : Keyword lexicon "rec" t u) (h : Dict bs u v) : Primary (.dict true bs) t v
  | var {x : Name} {t u : List Char} (name : Identifier lexicon x t u) : Primary (.var x) t u
  | parens {e : Expr} {t u v w : List Char} (opens : Delimiter lexicon "(" t u)
      (inner : Expression e u v) (closes : Delimiter lexicon ")" v w) : Primary e t w

/-- `items := dotted*` -/
inductive Items : List Expr → List Char → List Char → Prop where
  | nil (t : List Char) : Items [] t t
  | cons {e : Expr} {es : List Expr} {t u v : List Char} (first : Dotted e t u)
      (others : Items es u v) : Items (e :: es) t v

/-- `dict := '{' dictbinds '}'` -/
inductive Dict : List (Binding Expr Expr) → List Char → List Char → Prop where
  | mk {bs : List (Binding Expr Expr)} {t u v w : List Char} (opens : Delimiter lexicon "\x7b" t u)
      (bindings : DictBindings bs u v) (closes : Delimiter lexicon "\x7d" v w) : Dict bs t w

/-- `dictbinds := (dictbind ';')*` -/
inductive DictBindings : List (Binding Expr Expr) → List Char → List Char → Prop where
  | nil (t : List Char) : DictBindings [] t t
  | cons {b : Binding Expr Expr} {bs : List (Binding Expr Expr)} {t u v w : List Char}
      (first : DictBinding b t u) (semicolon : Delimiter lexicon ";" u v)
      (others : DictBindings bs v w) : DictBindings (b :: bs) t w

/-- `dictbind := inherit | key '=' expr` -/
inductive DictBinding : Binding Expr Expr → List Char → List Char → Prop where
  | inherit {source : Option Expr} {names : List String} {t u : List Char}
      (h : Inheritance source names t u) : DictBinding (.inherit source names) t u
  | equation {k e : Expr} {t u v w : List Char} (key : Key k t u)
      (mark : Delimiter lexicon "=" u v) (value : Expression e v w) :
      DictBinding (.equation k e) t w

/-- `key := IDENT | string | '${' expr '}'` -/
inductive Key : Expr → List Char → List Char → Prop where
  | name {x : Name} {t u : List Char} (name : Identifier lexicon x t u) : Key (.text x.text) t u
  | string {s : Template Expr} {t u : List Char} (h : StringLiteral s t u) : Key (.str s) t u
  | hole {e : Expr} {t u v w : List Char} (opens : Delimiter lexicon "$\x7b" t u)
      (inner : Expression e u v) (closes : Delimiter lexicon "\x7d" v w) : Key e t w

/-- `inherit := 'inherit' names | 'inherit' '(' expr ')' names` -/
inductive Inheritance : Option Expr → List String → List Char → List Char → Prop where
  | scope {names : List String} {t u v : List Char} (keyword : Keyword lexicon "inherit" t u)
      (list : Names names u v) : Inheritance none names t v
  | source {e : Expr} {names : List String} {t u v w y z : List Char}
      (keyword : Keyword lexicon "inherit" t u) (opens : Delimiter lexicon "(" u v)
      (inner : Expression e v w) (closes : Delimiter lexicon ")" w y) (list : Names names y z) :
      Inheritance (some e) names t z

/-- `names := name*` -/
inductive Names : List String → List Char → List Char → Prop where
  | nil (t : List Char) : Names [] t t
  | cons {x : String} {names : List String} {t u v : List Char} (first : StaticName x t u)
      (others : Names names u v) : Names (x :: names) t v

/-- `name := IDENT | string`, where the string has no antiquotes -/
inductive StaticName : String → List Char → List Char → Prop where
  | name {x : Name} {t u : List Char} (name : Identifier lexicon x t u) : StaticName x.text t u
  | string {s : Template Expr} {x : String} {t u : List Char} (h : StringLiteral s t u)
      (static : s.symbols = x.toList.map .inl) : StaticName x t u

/-- `string := '"' body '"' | "''" body "''"`, and the blank behind it -/
inductive StringLiteral : Template Expr → List Char → List Char → Prop where
  | mk {opening : Parser.Opening} {body s : Template Expr} {l : List (Char ⊕ Expr)}
      {t u v w : List Char} (opens : OpeningMark opening t u) (inner : StringBody opening body u v)
      (blank : Blank v w) (content : Content strip opening body.symbols l) (normal : Normal s l) :
      StringLiteral s t w

/-- `body := (characters | '${' expr '}')*`, and the mark that closes it -/
inductive StringBody : Parser.Opening → Template Expr → List Char → List Char → Prop where
  | close {opening : Parser.Opening} {t u : List Char} (h : ClosingMark opening t u) :
      StringBody opening [] t u
  | chars {opening : Parser.Opening} {cs : List Char} {body : Template Expr}
      {t u v : List Char} (first : Written opening cs t u) (others : StringBody opening body u v) :
      StringBody opening (.literal (String.ofList cs) :: body) t v
  | hole {opening : Parser.Opening} {e : Expr} {body : Template Expr} {t u v w z : List Char}
      (blank : Blank t u) (inner : Expression e u v) (closes : DelimiterAt lexicon "\x7d" v w)
      (others : StringBody opening body w z) :
      StringBody opening (.antiquote e :: body) ('$' :: '\x7b' :: t) z

end

end

/-- A program is an expression that is all there is, besides blanks. -/
def Program (lexicon : Lexicon) (strip : Stripping) (e : Expr) (text : List Char) : Prop :=
  ∃ t, Blank text t ∧ Expression lexicon strip e t []

end LazyConfig.Grammar
