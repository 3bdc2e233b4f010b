import MarkupQuery.Attributes
import MarkupQuery.Text.Reader

/-!
# Tokens of markup

A markup text is cut into tags, comments, a doctype and the text between them. The markup is plain:
attribute values are quoted, every `<` begins a tag, a comment or a doctype, and there are no
character references. Names of tags and attributes are read without regard to the case of ASCII
letters.

* `Token`; `readStartTag`, `readEndTag`, `readDeclaration`;
* `Token.read`: a token from the front of a text;
* **`Token.read_shrinks`**: reading a token leaves less of the text.
-/

namespace MarkupQuery

/-- A piece of markup. -/
inductive Token where
  | doctype (name : String)
  | comment (data : String)
  | startTag (tag : String) (attributes : List Attribute) (closed : Bool)
  | endTag (tag : String)
  | text (data : String)
deriving DecidableEq

/-! ## Names -/

/-- A name with its ASCII letters in lower case. -/
def lowerName (s : String) : String := String.ofList (s.toList.map Char.toLower)

/-- A later character of a tag name. -/
def isTagChar (c : Char) : Bool := !(isSpace c || c = '/' || c = '>')

/-- A character of an attribute name in markup. -/
def isMarkupAttributeChar (c : Char) : Bool := isTagChar c && c ≠ '='

/-- Reads a tag name. -/
def readTagName : Reader String := (readName (·.isAlpha) isTagChar).map lowerName

theorem readTagName_shrinks : readTagName.Shrinks := (readName_shrinks _ _).map _

/-! ## Tags -/

/-- Reads a closing bracket after any spaces. -/
def closeBracket? (cs : List Char) : Option (List Char) :=
  match cs.dropWhile isSpace with
  | '>' :: rest => some rest
  | _ => none

theorem length_closeBracket?_lt {cs rest : List Char} (h : closeBracket? cs = some rest) :
    rest.length < cs.length := by
  have hle := length_dropWhile_le isSpace cs
  simp only [closeBracket?] at h
  split at h
  · rename_i hd
    obtain rfl := by simpa using h
    rw [hd] at hle
    exact hle
  · simp at h

/-- Reads a name, an equals sign and a quoted value, after any spaces. -/
def readAttribute : Reader Attribute := fun cs =>
  match readName isMarkupAttributeChar isMarkupAttributeChar (cs.dropWhile isSpace) with
  | some (name, '=' :: '"' :: rest) => (readUntil '"').map (⟨lowerName name, ·⟩) rest
  | _ => none

theorem readAttribute_shrinks : readAttribute.Shrinks := by
  intro cs rest a h
  have hle := length_dropWhile_le isSpace cs
  simp only [readAttribute] at h
  split at h
  · rename_i hn
    have h₁ := readName_shrinks _ _ hn
    have h₂ := (readUntil_shrinks _).map _ h
    simp only [List.length_cons] at h₁
    omega
  · simp at h

/-- Reads the end of a start tag after any spaces: a closing bracket, and whether a slash stands in
front of it. -/
def readStartTagEnd : Reader Bool := fun cs =>
  match cs.dropWhile isSpace with
  | '/' :: '>' :: rest => some (true, rest)
  | '>' :: rest => some (false, rest)
  | _ => none

theorem readStartTagEnd_shrinks : readStartTagEnd.Shrinks := by
  intro cs rest closed h
  have hle := length_dropWhile_le isSpace cs
  simp only [readStartTagEnd] at h
  split at h
  · rename_i hd
    obtain ⟨-, rfl⟩ := by simpa using h
    rw [hd] at hle
    exact Nat.lt_of_succ_lt hle
  · rename_i hd
    obtain ⟨-, rfl⟩ := by simpa using h
    rw [hd] at hle
    exact hle
  · simp at h

/-- Reads the inside of a start tag. Of attributes with one name the first counts. -/
def readStartTag : Reader Token := fun cs =>
  match readTagName cs with
  | none => none
  | some (tag, rest) =>
    let (attributes, rest) := readAttribute.many readAttribute_shrinks rest
    readStartTagEnd.map (.startTag tag (attributes.eraseDupsBy (·.name == ·.name))) rest

theorem readStartTag_shrinks : readStartTag.Shrinks := by
  intro cs rest tok h
  simp only [readStartTag] at h
  split at h
  · simp at h
  · rename_i tag r hn
    have h₁ := readTagName_shrinks hn
    have h₂ := Reader.length_many_le readAttribute_shrinks r
    have h₃ := readStartTagEnd_shrinks.map _ h
    omega

/-- Reads the inside of an end tag. -/
def readEndTag : Reader Token := fun cs =>
  match readTagName cs with
  | none => none
  | some (tag, rest) => (closeBracket? rest).map (.endTag tag, ·)

theorem readEndTag_shrinks : readEndTag.Shrinks := by
  intro cs rest tok h
  simp only [readEndTag] at h
  split at h
  · simp at h
  · rename_i hn
    obtain ⟨_, hc, he⟩ := Option.map_eq_some_iff.1 h
    obtain ⟨-, rfl⟩ := by simpa using he
    exact Nat.lt_trans (length_closeBracket?_lt hc) (readTagName_shrinks hn)

/-! ## Declarations -/

/-- Reads text up to the first `-->` or `--!>`. -/
def readCommentData : Reader (List Char)
  | '-' :: '-' :: '>' :: rest => some ([], rest)
  | '-' :: '-' :: '!' :: '>' :: rest => some ([], rest)
  | c :: cs => (readCommentData cs).map fun (data, rest) => (c :: data, rest)
  | [] => none

theorem readCommentData_shrinks : readCommentData.Shrinks := by
  intro cs
  induction cs with
  | nil => intro rest a h; simp [readCommentData] at h
  | cons c cs ih =>
    intro rest a h
    unfold readCommentData at h
    split at h
    · rename_i heq
      obtain ⟨-, rfl⟩ := by simpa using h
      rw [heq]
      simp only [List.length_cons]
      omega
    · rename_i heq
      obtain ⟨-, rfl⟩ := by simpa using h
      rw [heq]
      simp only [List.length_cons]
      omega
    · rename_i heq
      obtain ⟨rfl, rfl⟩ := List.cons.inj heq
      obtain ⟨⟨d, r⟩, hd, he⟩ := Option.map_eq_some_iff.1 h
      obtain ⟨-, rfl⟩ := by simpa using he
      exact Nat.lt_succ_of_lt (ih hd)
    · simp at h

/-- Reads the inside of a comment. A bracket that follows at once, or after one hyphen, ends it
too. -/
def readComment : Reader (List Char)
  | '>' :: rest => some ([], rest)
  | '-' :: '>' :: rest => some ([], rest)
  | cs => readCommentData cs

theorem readComment_shrinks : readComment.Shrinks := by
  intro cs rest a h
  unfold readComment at h
  split at h
  · obtain ⟨-, rfl⟩ := by simpa using h
    exact Nat.lt_succ_self _
  · obtain ⟨-, rfl⟩ := by simpa using h
    exact Nat.lt_succ_of_lt (Nat.lt_succ_self _)
  · exact readCommentData_shrinks h

/-- Reads a declaration behind its `<!`: a comment, or a doctype with a name. -/
def readDeclaration : Reader Token
  | '-' :: '-' :: cs => (readComment.map fun data => .comment (String.ofList data)) cs
  | cs =>
    match readName (·.isAlpha) (·.isAlpha) cs with
    | some (word, rest) =>
      if lowerName word = "doctype" then
        match readTagName (rest.dropWhile isSpace) with
        | some (name, rest) => (closeBracket? rest).map (.doctype name, ·)
        | none => none
      else none
    | none => none

theorem readDeclaration_shrinks : readDeclaration.Shrinks := by
  intro cs rest tok h
  unfold readDeclaration at h
  split at h
  · have := readComment_shrinks.map _ h
    simp only [List.length_cons]
    omega
  · split at h
    · rename_i r hw
      have h₁ := readName_shrinks _ _ hw
      have h₂ := length_dropWhile_le isSpace r
      split at h
      · split at h
        · rename_i hn
          have h₃ := readTagName_shrinks hn
          obtain ⟨_, hc, he⟩ := Option.map_eq_some_iff.1 h
          obtain ⟨-, rfl⟩ := by simpa using he
          have h₄ := length_closeBracket?_lt hc
          omega
        · simp at h
      · simp at h
    · simp at h

/-! ## Tokens -/

namespace Token

/-- Reads one token. Text goes on up to the next `<`. -/
def read : Reader Token
  | '<' :: '!' :: cs => readDeclaration cs
  | '<' :: '/' :: cs => readEndTag cs
  | '<' :: cs => readStartTag cs
  | cs => (readName (· ≠ '<') (· ≠ '<')).map .text cs

/-- **Reading a token leaves less of the text.** -/
theorem read_shrinks : read.Shrinks := by
  intro cs rest tok h
  unfold read at h
  split at h
  · exact Nat.lt_succ_of_lt (Nat.lt_succ_of_lt (readDeclaration_shrinks h))
  · exact Nat.lt_succ_of_lt (Nat.lt_succ_of_lt (readEndTag_shrinks h))
  · exact Nat.lt_succ_of_lt (readStartTag_shrinks h)
  · exact (readName_shrinks _ _).map _ h

end Token

end MarkupQuery
