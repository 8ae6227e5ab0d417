import Mpt.Parse.ConfigRun

/-! # Texts of a tree of options

An option stands on a line of its own, with its value as it is or in quotes, and what is
between the ends of a section is in the section.  White space and lines of comments can
stand before every element.
-/

namespace Mpt.Parse

/-- Options and sections, one after the other. -/
inductive Tree where
  | nil
  | option (name val : List Byte) (rest : Tree)
  | section_ (name : List Byte) (inner rest : Tree)

/-- What is to be handed on: the elements of the path and the value. -/
structure Entry where
  event : Event
  els : List (List Byte)
  val : Option (List Byte)

/-- The event of an option, and its value if it has one. -/
def optionEntry (els : List (List Byte)) (val : List Byte) : Entry :=
  if val = [] then ⟨.option, els, none⟩ else ⟨.optionData, els, some val⟩

/-- The elements of a tree in their order, below open sections. -/
def Tree.entries (els : List (List Byte)) : Tree → List Entry
  | nil => []
  | option name val rest => optionEntry (els ++ [name]) val :: rest.entries els
  | section_ name inner rest =>
      ⟨.section_, els ++ [name], none⟩ :: inner.entries (els ++ [name]) ++
        ⟨.sectEnd, els ++ [name], none⟩ :: rest.entries els

/-- The characters of a format do not get in each other's way. -/
structure Plain (fmt : Format) : Prop where
  sstart : fmt.sstart ≠ 0 ∧ isSpace fmt.sstart = false
  send : fmt.send ≠ 0 ∧ isSpace fmt.send = false ∧ fmt.send ≠ fmt.sstart ∧
    fmt.com.contains fmt.send = false
  assign : fmt.assign ≠ 0 ∧ isSpace fmt.assign = false ∧ fmt.assign ≠ fmt.send ∧
    fmt.assign ≠ fmt.sstart
  ostart : fmt.ostart = 0
  oend : fmt.oend = 0
  space : ∀ c, isSpace c = true → fmt.com.contains c = false ∧ fmt.esc.contains c = false

/-- The default format. -/
theorem Plain.init : Plain .init := by
  refine ⟨by decide, by decide, by decide, rfl, rfl, fun c space => ?_⟩
  have other (d : Byte) (visible : isSpace d = false) : c ≠ d := by
    rintro rfl
    rw [space] at visible
    cases visible
  simp [Format.init, other 0 rfl, other 34 rfl, other 35 rfl, other 39 rfl]

/-- White space within a line. -/
def Blank (l : List Byte) : Prop := ∀ c ∈ l, isSpace c = true ∧ c ≠ 10

/-- White space and lines of comments. -/
inductive Gap (fmt : Format) : List Byte → Prop where
  | nil : Gap fmt []
  | space (c : Byte) (g : List Byte) (space : isSpace c = true) (rest : Gap fmt g) : Gap fmt (c :: g)
  | comment (c : Byte) (l g : List Byte) (char : c ≠ 0) (visible : isSpace c = false)
      (com : fmt.com.contains c = true) (line : 10 ∉ l) (rest : Gap fmt g) :
      Gap fmt (c :: (l ++ 10 :: g))

/-- The first and the last character are visible. -/
structure Visible (w : List Byte) : Prop where
  first : ∃ c l, w = c :: l ∧ isSpace c = false
  last : ∃ l c, w = l ++ [c] ∧ isSpace c = false

/-- A name that is read as it is. -/
structure Named (fmt : Format) (take : Nat) (name : List Byte) : Prop where
  visible : Visible name
  chars : ∀ c ∈ name, c ≠ 0 ∧ c ≠ 10 ∧ c ≠ 46 ∧ c ≠ fmt.send ∧ c ≠ fmt.sstart ∧ c ≠ fmt.assign ∧
    fmt.com.contains c = false
  short : name.length < 256
  taken : ncheckLoop take true name = .ok ()

/-- The escape character is put in front of every quote. -/
def escaped (quote : Byte) (val : List Byte) : List Byte :=
  val.flatMap fun c => if c = quote then [92, quote] else [c]

/-- The texts for a value. -/
inductive Written (fmt : Format) : List Byte → List Byte → Prop where
  | none : Written fmt [] []
  | plain (val : List Byte) (visible : Visible val)
      (chars : ∀ c ∈ val, c ≠ 0 ∧ c ≠ 10 ∧ fmt.com.contains c = false ∧ fmt.esc.contains c = false) :
      Written fmt val val
  | quoted (quote : Byte) (val : List Byte) (esc : fmt.isEscape quote = true) (other : quote ≠ 92)
      (chars : ∀ c ∈ val, c ≠ 0) (last : val.getLast? ≠ some 92) :
      Written fmt val (quote :: (escaped quote val ++ [quote]))

/-- The texts for a tree. -/
inductive Writes (fmt : Format) : Tree → List Byte → Prop where
  | nil (g : List Byte) (gap : Gap fmt g) : Writes fmt .nil g
  | option (name val : List Byte) (rest : Tree) (g before after_ d behind t : List Byte)
      (gap : Gap fmt g) (blank : Blank before) (blank' : Blank after_) (blank'' : Blank behind)
      (written : Written fmt val d) (more : Writes fmt rest t) :
      Writes fmt (.option name val rest)
        (g ++ (name ++ (before ++ fmt.assign :: (after_ ++ (d ++ (behind ++ 10 :: t))))))
  | section_ (name : List Byte) (inner rest : Tree) (g before i t : List Byte) (gap : Gap fmt g)
      (blank : Blank before) (inside : Writes fmt inner i) (more : Writes fmt rest t) :
      Writes fmt (.section_ name inner rest)
        (g ++ (name ++ (before ++ fmt.sstart :: (i ++ fmt.send :: t))))

/-- The names are accepted, and the values can be counted. -/
def Tree.Accepted (fmt : Format) (sect opt : Nat) : Tree → Prop
  | nil => True
  | option name val rest => Named fmt opt name ∧ val.length < 2 ^ 16 ∧ rest.Accepted fmt sect opt
  | section_ name inner rest =>
      Named fmt sect name ∧ inner.Accepted fmt sect opt ∧ rest.Accepted fmt sect opt

/-- The tree of a section `b` with an option `a`. -/
def Tree.sample : Tree := .section_ [98] (.option [97] [49] .nil) .nil

/-- The text `b{a='1'`, and `}` on a line of its own. -/
def Tree.sampleText : List Byte := [98, 123, 97, 61, 39, 49, 39, 10, 125]

theorem Tree.sample_written : Writes .init sample sampleText := by
  have blank : Blank [] := fun c mem => by cases mem
  have value : Written .init [49] [39, 49, 39] := .quoted 39 [49] rfl (by decide) (by simp) (by decide)
  have inside := Writes.option [97] [49] .nil [] [] [] _ [] [] .nil blank blank blank value (.nil [] .nil)
  exact .section_ [98] _ .nil [] [] _ [] .nil blank inside (.nil [] .nil)

theorem Tree.sample_accepted : sample.Accepted .init 255 255 := by
  have named (c : Byte) (visible : isSpace c = false) (chars : ∀ x ∈ [c], x ≠ 0 ∧ x ≠ 10 ∧ x ≠ 46 ∧
      x ≠ 125 ∧ x ≠ 123 ∧ x ≠ 61 ∧ [35, 0, 0, 0].contains x = false)
      (taken : ncheckLoop 255 true [c] = .ok ()) : Named .init 255 [c] :=
    ⟨⟨⟨c, [], rfl, visible⟩, [], c, rfl, visible⟩, chars, by simp, taken⟩
  exact ⟨named 98 rfl (by simp) rfl, ⟨named 97 rfl (by simp) rfl, by decide, trivial⟩, trivial⟩

end Mpt.Parse
