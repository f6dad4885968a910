/-
  The bodies of tags by offsets.

  The readers of `Reading` on a cursor, up to the offset where the tag ends.  The part of a body
  that is a text is the slice from the cursor to that offset.

  * `caption_eq`: a caption is cut out at the offsets of its opening and its closing;
  * `reads_ofBody`: a body is read as `Reading.ofBody` reads it, whatever the layout.
-/
import DocComment.Proofs.Offset.Name
import DocComment.Proofs.Offset.Type

namespace DocComment

open Text

/-! ## Captions -/

theorem eq_append_of_cut? {word cs before behind : List Char}
    (h : cut? word cs = some (before, behind)) : cs = before ++ (word ++ behind) := by
  induction cs generalizing before with
  | nil =>
    rw [cut?] at h
    split_ifs at h with hw
    cases h
    rw [hw]
    rfl
  | cons c cs ih =>
    rw [cut?] at h
    split_ifs at h with hw
    · cases h
      obtain ⟨v, hv⟩ := List.isPrefixOf_iff_prefix.1 hw
      rw [← hv, List.drop_left, List.nil_append]
    · obtain ⟨r, hr, hrest⟩ := Option.map_eq_some_iff.1 h
      cases hrest
      rw [List.cons_append, ← ih hr]

/-- Of two front parts of a text the longer one is the wider one. -/
theorem Text.length_le_iff_width_le {u v cs : List Char} (hu : u <+: cs) (hv : v <+: cs) :
    u.length ≤ v.length ↔ width u ≤ width v := by
  have width_le {u v : List Char} (h : u <+: v) : width u ≤ width v := by
    obtain ⟨t, rfl⟩ := h
    rw [width_append]
    exact Nat.le_add_right _ _
  refine ⟨fun h => width_le (List.prefix_of_prefix_length_le hu hv h), fun h => ?_⟩
  by_contra hlt
  obtain ⟨t, rfl⟩ := List.prefix_of_prefix_length_le hv hu (Nat.le_of_lt (Nat.lt_of_not_le hlt))
  have ht : t = [] := by
    by_contra hne
    have := width_pos hne
    rw [width_append] at h
    omega
  rw [ht, List.append_nil] at hlt
  exact hlt (Nat.le_refl _)

namespace Offset

/-- The offset of the first occurrence of a word. -/
def find? (word cs : List Char) : Option Nat := (cut? word cs).map fun r => width r.1

/-- The caption in a text, cut out at the offsets of its opening and its closing. -/
def caption (cs : List Char) : Option (Option (List Char × List Char)) :=
  match find? captionStart cs, find? captionStop cs with
  | some opening, some closing =>
    if opening + width captionStart ≤ closing then do
      let captioned ← slice? cs (opening + width captionStart) closing
      let behind ← dropWidth (closing + width captionStop) cs
      some (some (trim captioned, trim behind))
    else some none
  | _, _ => some none

theorem caption_eq (cs : List Char) : caption cs = some (caption? cs) := by
  rw [caption, caption?, find?, find?]
  cases hopen : cut? captionStart cs with
  | none => rfl
  | some opening =>
    cases hclose : cut? captionStop cs with
    | none => rfl
    | some closing =>
      obtain ⟨before, rest⟩ := opening
      obtain ⟨captioned, behind⟩ := closing
      have hfront := eq_append_of_cut? hopen
      have hback := eq_append_of_cut? hclose
      rw [← List.append_assoc] at hfront
      have hprefix : before ++ captionStart <+: cs := ⟨rest, hfront.symm⟩
      have hprefix' : captioned <+: cs := ⟨captionStop ++ behind, hback.symm⟩
      have hle := length_le_iff_width_le hprefix hprefix'
      rw [List.length_append, width_append] at hle
      simp only [Option.map_some, Option.bind_eq_bind, Option.bind_some]
      by_cases h : width before + width captionStart ≤ width captioned
      · rw [if_pos h, if_pos (hle.2 h)]
        obtain ⟨m, rfl⟩ := List.prefix_of_prefix_length_le hprefix hprefix' (by
          rw [List.length_append]
          exact hle.2 h)
        have hslice := slice?_append (before ++ captionStart) m (captionStop ++ behind)
        have hdrop := dropWidth_append (before ++ captionStart ++ m ++ captionStop) behind
        rw [← List.append_assoc, ← hback, width_append before] at hslice
        rw [List.append_assoc _ captionStop, ← hback, width_append _ captionStop] at hdrop
        rw [hslice, hdrop, ← List.length_append, List.drop_left]
        rfl
      · rw [if_neg h, if_neg fun h' => h (hle.1 h')]

/-! ## Readings -/

namespace Reader

open Reading (faultIf trailing pathText missingType asOptional unbracketed)

variable (text : List Char) (last : Nat) (origins : Origins) (mode : Reading.Mode)

/-- What is left of the body. -/
def remaining : Reader (List Char) := do
  let start ← index
  slice? text start last

/-- A body that is a text, perhaps with a caption. -/
def captioned (tag : Tag) : Reader Reading := do
  let text := trim (← remaining text last)
  match ← caption text with
  | some (caption, behind) =>
    return { tag := { tag with
      caption := some (.ofList caption)
      description := some (.ofList behind) } }
  | none => return { tag := { tag with description := some (.ofList text) } }

/-- A body that starts with a path. -/
def path (required : Bool) (tag : Tag) : Reader Reading := do
  let name ← scan text last false true
  return {
    tag := { tag with name := pathText name }
    faults := faultIf (required && name.isNone) .missingName }

/-- A body that is a path. -/
def onlyPath (required : Bool) (tag : Tag) : Reader Reading := do
  let reading ← path text last required tag
  return { reading with faults := reading.faults ++ trailing (← remaining text last) }

/-- A body that starts with a type, which goes into the tag. -/
def typed (title : String) (tag : Tag) (next : Tag → Reader (Except SyntaxError Reading)) :
    Reader (Except SyntaxError Reading) := do
  match ← readType text last title mode.range origins with
  | .error e => return .error e
  | .ok type => next { tag with type := type }

/-- A body that is a path, or a type that is a name or a union. -/
def receiver (tag : Tag) (title : String) : Reader (Except SyntaxError Reading) := do
  if (trim (← remaining text last)).head? = some '{' then
    typed text last origins mode title tag fun tag => do
      let named := tag.type.any fun t => t.name?.isSome || t.isUnion
      return .ok {
        tag := { tag with name := tag.type.bind TypeExpr.name? }
        faults := missingType title tag.type ++ faultIf (!named) .misnamedThis ++
          trailing (← remaining text last) }
  else return .ok (← onlyPath text last true tag)

/-- The name of a general tag. -/
def named (title : String) (tag : Tag) : Reader Reading := do
  if Title.allowsName title then
    let like := Title.isParameterLike title
    match ← scan text last (mode.sloppy && like) like with
    | some name =>
      return { tag := { tag with
        name := some (.ofList name.path)
        default := name.default.map .ofList
        type := if name.bracketed then tag.type.map asOptional else tag.type } }
    | none =>
      match tag.type.bind TypeExpr.name? with
      | some name =>
        if Title.isParameter title then
          return { tag := { tag with name := some name, type := none } }
        else return { tag, faults := faultIf (Title.requiresName title) .missingName }
      | none => return { tag, faults := faultIf (Title.requiresName title) .missingName }
  else return { tag }

/-- A body of a type, a name and a text. -/
def general (tag : Tag) (title : String) : Reader (Except SyntaxError Reading) :=
  typed text last origins mode title tag fun tag => do
    let reading ← named text last mode title tag
    let description := (description (← remaining text last)).map .ofList
    return .ok (unbracketed mode title tag.type
      { tag := { reading.tag with description }
        faults := missingType title tag.type ++ reading.faults })

/-- A body read by the layout of its title. -/
def ofBody (tag : Tag) (title : String) : Reader (Except SyntaxError Reading) := do
  match Title.layout title with
  | .access =>
    let (access, faults) := Reading.word Title.accessLevels .unknownAccess (← remaining text last)
    return .ok { tag := { tag with access := some access }, faults }
  | .kind =>
    let (kind, faults) := Reading.word Title.kinds .unknownKind (← remaining text last)
    return .ok { tag := { tag with kind := some kind }, faults }
  | .variation => return .ok (Reading.variation tag (← remaining text last))
  | .captioned => return .ok (← captioned text last tag)
  | .path => return .ok (← onlyPath text last true tag)
  | .typedPath =>
    typed text last origins mode title tag fun tag => do
      return .ok (← onlyPath text last false tag)
  | .optionalPath => return .ok (← onlyPath text last false tag)
  | .prose => return .ok (Reading.prose tag (← remaining text last))
  | .typedProse =>
    typed text last origins mode title tag fun tag => do
      return .ok (Reading.prose tag (← remaining text last))
  | .bare => return .ok { tag, faults := trailing (← remaining text last) }
  | .receiver => receiver text last origins mode tag title
  | .typedef =>
    typed text last origins mode title tag fun tag => do
      let reading ← path text last false tag
      return .ok { reading with faults := missingType title tag.type ++ reading.faults }
  | .general => general text last origins mode tag title

end Reader

/-! ## What is read -/

open Reader Cursor

section Texts

variable {text w b : List Char}

theorem reads_remaining : Reads text w (remaining text (before text w).index) b b b :=
  reads_index.bind (Reads.of_run fun h => run_lift (slice?_before h))

theorem reads_captioned (tag : Tag) : Reads text w (captioned text (before text w).index tag) b
    (Reading.captioned tag b) b := by
  refine reads_remaining.bind <| (Reads.lift (caption_eq _)).bind ?_
  rw [Reading.captioned]
  cases caption? (trim b) <;> exact Reads.pure _

variable (hw : ∀ c ∈ w.head?, c = '@')
include hw

theorem reads_path (required : Bool) (tag : Tag) (b : List Char) :
    Reads text w (Reader.path text (before text w).index required tag) b
      (Reading.path required tag b).1 (Reading.path required tag b).2 :=
  (reads_scan hw false true b).bind (Reads.pure _)

theorem reads_onlyPath (required : Bool) (tag : Tag) (b : List Char) : ∃ r,
    Reads text w (onlyPath text (before text w).index required tag) b
      (Reading.onlyPath required tag b) r :=
  ⟨_, (reads_path hw required tag b).bind <| reads_remaining.bind (Reads.pure _)⟩

theorem reads_named (mode : Reading.Mode) (title : String) (tag : Tag) (b : List Char) :
    Reads text w (named text (before text w).index mode title tag) b
      (Reading.named mode title tag b).1 (Reading.named mode title tag b).2 := by
  rw [Reading.named]
  by_cases ha : Title.allowsName title
  · rw [if_pos ha]
    refine Reads.ite_pos ha ?_
    have hscan := @reads_scan text w hw (mode.sloppy && Title.isParameterLike title)
      (Title.isParameterLike title) b
    rcases hs : TagName.scan (mode.sloppy && Title.isParameterLike title)
      (Title.isParameterLike title) b with ⟨_ | name, rest⟩
    · rw [hs] at hscan
      refine hscan.bind ?_
      simp only [hs]
      cases tag.type.bind TypeExpr.name? with
      | none => exact Reads.pure _
      | some name =>
        by_cases hp : Title.isParameter title
        · simp only [if_pos hp]
          exact Reads.pure _
        · simp only [if_neg hp]
          exact Reads.pure _
    · rw [hs] at hscan
      simp only [hs]
      exact hscan.bind (Reads.pure _)
  · rw [if_neg ha]
    exact Reads.ite_neg ha (Reads.pure _)

end Texts

section Bodies

variable {e behind : Excerpt} {origins : Origins} (hw : ∀ c ∈ behind.text.head?, c = '@')
  (ho : origins.Describes e)
include ho

theorem reads_typed {body : Excerpt} (h : body ++ behind <:+ e) (mode : Reading.Mode) (tag : Tag)
    (title : String) {next : Tag → Reader (Except SyntaxError Reading)}
    {f : Option TypeExpr × Excerpt → Except SyntaxError Reading}
    (hnext : ∀ type rest, ∃ r,
      Reads e.text behind.text (next { tag with type := type }) (Excerpt.text rest) (f (type, rest)) r) :
    ∃ r, Reads e.text behind.text
      (typed e.text (before e.text behind.text).index origins mode title tag next) body.text
      (DocComment.readType title mode.range body >>= f) r := by
  obtain ⟨r, hread, hrest⟩ := reads_readType ho h title mode.range
  cases ht : DocComment.readType title mode.range body with
  | error err =>
    rw [ht] at hread
    exact ⟨r, hread.bind (Reads.pure _)⟩
  | ok y =>
    rw [ht] at hread
    obtain ⟨r', hr'⟩ := hnext y.1 y.2
    rw [hrest y ht] at hread
    exact ⟨r', hread.bind hr'⟩

include hw

theorem reads_receiver {body : Excerpt} (h : body ++ behind <:+ e) (mode : Reading.Mode) (tag : Tag)
    (title : String) : ∃ r, Reads e.text behind.text
      (Reader.receiver e.text (before e.text behind.text).index origins mode tag title) body.text
      (Reading.receiver mode tag title body) r := by
  rw [Reading.receiver]
  by_cases hb : (trim body.text).head? = some '{'
  · rw [if_pos hb]
    refine Exists.imp (fun r hr => reads_remaining.bind <| Reads.ite_pos hb hr) ?_
    exact reads_typed ho h mode tag title fun _ _ => ⟨_, reads_remaining.bind (Reads.pure _)⟩
  · rw [if_neg hb]
    obtain ⟨r, hr⟩ := reads_onlyPath hw true tag body.text
    exact ⟨r, reads_remaining.bind <| Reads.ite_neg hb <| hr.bind (Reads.pure _)⟩

theorem reads_general {body : Excerpt} (h : body ++ behind <:+ e) (mode : Reading.Mode) (tag : Tag)
    (title : String) : ∃ r, Reads e.text behind.text
      (Reader.general e.text (before e.text behind.text).index origins mode tag title) body.text
      (Reading.general mode tag title body) r :=
  reads_typed ho h mode tag title fun _ _ =>
    ⟨_, (reads_named hw mode title _ _).bind <| reads_remaining.bind (Reads.pure _)⟩

/-- **Bodies by offsets.**  A body is read as the library reads it. -/
theorem reads_ofBody {body : Excerpt} (h : body ++ behind <:+ e) (mode : Reading.Mode) (tag : Tag)
    (title : String) : ∃ r, Reads e.text behind.text
      (Reader.ofBody e.text (before e.text behind.text).index origins mode tag title) body.text
      (Reading.ofBody mode tag title body) r := by
  unfold Reader.ofBody Reading.ofBody
  cases Title.layout title with
  | access => exact ⟨_, reads_remaining.bind (Reads.pure _)⟩
  | kind => exact ⟨_, reads_remaining.bind (Reads.pure _)⟩
  | variation => exact ⟨_, reads_remaining.bind (Reads.pure _)⟩
  | captioned => exact ⟨_, (reads_captioned tag).bind (Reads.pure _)⟩
  | path =>
    obtain ⟨r, hr⟩ := reads_onlyPath hw true tag body.text
    exact ⟨r, hr.bind (Reads.pure _)⟩
  | typedPath =>
    refine reads_typed ho h mode tag title fun type rest => ?_
    obtain ⟨r, hr⟩ := reads_onlyPath hw false { tag with type := type } (Excerpt.text rest)
    exact ⟨r, hr.bind (Reads.pure _)⟩
  | optionalPath =>
    obtain ⟨r, hr⟩ := reads_onlyPath hw false tag body.text
    exact ⟨r, hr.bind (Reads.pure _)⟩
  | prose => exact ⟨_, reads_remaining.bind (Reads.pure _)⟩
  | typedProse =>
    exact reads_typed ho h mode tag title fun _ _ => ⟨_, reads_remaining.bind (Reads.pure _)⟩
  | bare => exact ⟨_, reads_remaining.bind (Reads.pure _)⟩
  | receiver => exact reads_receiver hw ho h mode tag title
  | typedef =>
    exact reads_typed ho h mode tag title fun _ _ =>
      ⟨_, (reads_path hw false _ _).bind (Reads.pure _)⟩
  | general => exact reads_general hw ho h mode tag title

end Bodies

end Offset

end DocComment
