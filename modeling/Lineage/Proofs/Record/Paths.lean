/-
  Lineage.Proofs.Record.Paths

  The paths of a record, and what a write does at each of them.

  A record is determined by what it has at its paths (`Record.ext_content`).  The write of
  a copy brings a record at the marked paths to what the copy has there
  (`Copy.content_update_marked`), and leaves it as it is at all others
  (`Copy.content_update_unmarked`).
-/
import Lineage.Proofs.Dict
import Lineage.World.Basic

namespace Lineage

/-! ## Paths -/

/-- The parts of a record that are written each on its own. -/
inductive Path where
  /-- The parent and the recycled flag. -/
  | header
  | property (name : String)
  | method (name : String)
  deriving DecidableEq

/-- What a record has at a path. -/
inductive Content where
  | header (parent : ObjectId) (recycled : Bool)
  | property (found : Option Value)
  | method (found : Option MethodDef)

namespace Record

def content (r : Record) : Path → Content
  | .header => .header r.parent r.recycled
  | .property name => .property (r.properties.get? name)
  | .method name => .method (r.methods.get? name)

/-- Records with the same times that have the same at every path are the same. -/
theorem ext_content {r s : Record} (hid : r.id = s.id)
    (hcreated : r.created = s.created) (hmodified : r.modified = s.modified)
    (hcontent : ∀ p, r.content p = s.content p) : r = s := by
  have hheader := hcontent .header
  have hproperties : r.properties = s.properties := OrderedDict.ext_get? fun name =>
    Content.property.inj (hcontent (.property name))
  have hmethods : r.methods = s.methods := OrderedDict.ext_get? fun name =>
    Content.method.inj (hcontent (.method name))
  obtain ⟨id, parent, properties, methods, created, modified, recycled⟩ := r
  obtain ⟨id', parent', properties', methods', created', modified', recycled'⟩ := s
  obtain ⟨hparent, hrecycled⟩ := Content.header.inj hheader
  simp only at hid hcreated hmodified hproperties hmethods hparent hrecycled
  subst hid hcreated hmodified hproperties hmethods hparent hrecycled
  rfl

/-- Other properties make no difference but where they are others. -/
theorem content_properties {r : Record} {d : OrderedDict String Value} {name : String}
    (h : ∀ other, other ≠ name → d.get? other = r.properties.get? other) {p : Path}
    (hp : p ≠ .property name) : content { r with properties := d } p = r.content p := by
  cases p with
  | property other => exact congrArg _ (h other fun heq => hp (congrArg _ heq))
  | _ => rfl

/-- Nor do other methods. -/
theorem content_methods {r : Record} {d : OrderedDict String MethodDef} {name : String}
    (h : ∀ other, other ≠ name → d.get? other = r.methods.get? other) {p : Path}
    (hp : p ≠ .method name) : content { r with methods := d } p = r.content p := by
  cases p with
  | method other => exact congrArg _ (h other fun heq => hp (congrArg _ heq))
  | _ => rfl

end Record

/-! ## Marks -/

namespace NameSet

theorem has_add (s : NameSet) (name other : String) :
    (s.add name).has other = (decide (other = name) || s.has other) := by
  rw [add, Dict.has, Dict.get?_put]
  by_cases h : other = name
  · rw [if_pos h, decide_eq_true h]
    rfl
  · rw [if_neg h, decide_eq_false h, Bool.false_or, Dict.has]

theorem has_cons (name other : String) (s : NameSet) :
    Dict.has ((name, ()) :: s) other = (decide (other = name) || s.has other) := by
  rw [Dict.has, Dict.get?]
  by_cases h : other = name
  · rw [if_pos (Std.LawfulEqOrd.compare_eq_iff_eq.mpr h), decide_eq_true h]
    rfl
  · rw [if_neg fun heq => h (Std.LawfulEqOrd.compare_eq_iff_eq.mp heq), decide_eq_false h,
      Bool.false_or, Dict.has]

theorem has_merge (s t : NameSet) (name : String) :
    (s.merge t).has name = (s.has name || t.has name) := by
  induction t generalizing s with
  | nil => rw [merge, List.foldl_nil]; exact (Bool.or_false _).symm
  | cons e t ih =>
    rw [merge, List.foldl_cons, ← merge, ih, has_add, has_cons, Bool.or_comm (decide _),
      Bool.or_assoc]

end NameSet

namespace Dirty

/-- Whether a path is marked as changed. -/
def Marks (d : Dirty) : Path → Prop
  | .header => d.header = true
  | .property name => d.properties.has name = true
  | .method name => d.methods.has name = true

theorem isEmpty_iff {s : NameSet} : s.isEmpty = true ↔ ∀ name, s.has name = false := by
  cases s with
  | nil => exact ⟨fun _ _ => rfl, fun _ => rfl⟩
  | cons e s =>
    refine ⟨fun h => (nomatch h), fun h => ?_⟩
    have hhas := h e.1
    rw [NameSet.has_cons, decide_eq_true rfl] at hhas
    cases hhas

theorem isClean_iff {d : Dirty} : d.isClean = true ↔ ∀ p, ¬ d.Marks p := by
  simp only [isClean, Bool.and_eq_true, Bool.not_eq_true', isEmpty_iff]
  constructor
  · rintro ⟨⟨hheader, hproperties⟩, hmethods⟩ (_ | name | name) hmarks
    · exact Bool.false_ne_true (hheader.symm.trans hmarks)
    · exact Bool.false_ne_true ((hproperties name).symm.trans hmarks)
    · exact Bool.false_ne_true ((hmethods name).symm.trans hmarks)
  · intro h
    exact ⟨⟨Bool.eq_false_iff.mpr (h .header), fun name => Bool.eq_false_iff.mpr (h (.property name))⟩,
      fun name => Bool.eq_false_iff.mpr (h (.method name))⟩

theorem marks_addHeader (d : Dirty) (p : Path) :
    Marks { d with header := true } p ↔ p = .header ∨ d.Marks p := by
  cases p with
  | header => exact ⟨fun _ => .inl rfl, fun _ => rfl⟩
  | _ => exact ⟨.inr, fun h => h.elim nofun id⟩

theorem marks_addProperty (d : Dirty) (name : String) (p : Path) :
    Marks { d with properties := d.properties.add name } p ↔ p = .property name ∨ d.Marks p := by
  cases p with
  | property other =>
    simp only [Marks, NameSet.has_add, Bool.or_eq_true, decide_eq_true_eq, Path.property.injEq]
  | _ => exact ⟨.inr, fun h => h.elim nofun id⟩

theorem marks_addMethod (d : Dirty) (name : String) (p : Path) :
    Marks { d with methods := d.methods.add name } p ↔ p = .method name ∨ d.Marks p := by
  cases p with
  | method other =>
    simp only [Marks, NameSet.has_add, Bool.or_eq_true, decide_eq_true_eq, Path.method.injEq]
  | _ => exact ⟨.inr, fun h => h.elim nofun id⟩

theorem not_marks_clean (p : Path) : ¬ Marks {} p := isClean_iff.mp rfl p

theorem marks_merge (d e : Dirty) (p : Path) : (d.merge e).Marks p ↔ d.Marks p ∨ e.Marks p := by
  cases p with
  | header => exact Bool.or_eq_true_iff
  | property name => rw [Marks, merge, NameSet.has_merge]; exact Bool.or_eq_true_iff
  | method name => rw [Marks, merge, NameSet.has_merge]; exact Bool.or_eq_true_iff

end Dirty

/-! ## Writes -/

/-- The changes that a set of names stands for are made one after the other.  If each settles what is
found under its own name and leaves the rest, then what is found under a name in the set is what has
been written of it, and all else is as it was.  Induction on the names. -/
theorem Copy.foldl_current {α β σ : Type} {I : σ → Prop} {make : σ → String × Option α → σ}
    {f : σ → Option β} {g : α → β} (name : String) (hkeeps : ∀ s change, I s → I (make s change))
    (hmake : ∀ s changed a, I s → f (make s (changed, a)) = if name = changed then a.map g else f s)
    (d : Dict String α) (names : NameSet) {s : σ} (hs : I s) :
    f ((current names d).foldl make s) = if names.has name then (d.get? name).map g else f s := by
  induction names generalizing s with
  | nil => rfl
  | cons head rest ih =>
    obtain ⟨changed, ⟨⟩⟩ := head
    show f ((current rest d).foldl make (make s (changed, d.get? changed))) = _
    rw [ih (hkeeps _ _ hs), hmake _ _ _ hs, NameSet.has_cons]
    by_cases hname : name = changed
    · rw [if_pos hname, hname, decide_eq_true rfl, Bool.true_or, ite_self, if_pos rfl]
    · rw [if_neg hname, decide_eq_false hname, Bool.false_or]

/-- The names in a set get what a dictionary has under them. -/
theorem Update.get?_patch_current {α : Type} (names : NameSet) (d e : OrderedDict String α)
    (name : String) : (patch (Copy.current names d.entries) e).get? name =
      if names.has name then d.get? name else e.get? name := by
  refine (Copy.foldl_current (I := fun _ => True) (f := (OrderedDict.get? · name)) (g := id) name
    (fun _ _ _ => trivial) (fun e changed a _ => ?_) d.entries names trivial).trans ?_
  · cases a with
    | some v => exact OrderedDict.get?_put e changed name v
    | none => exact OrderedDict.get?_remove e changed name
  · rw [Option.map_id]
    rfl

namespace Copy

/-- The write of a copy brings the marked paths to what the copy has there. -/
theorem content_update_marked (c : Copy) (now : Timestamp) (old : Record) {p : Path}
    (hmarks : c.dirty.Marks p) : ((c.update now).applyTo old).content p = c.record.content p := by
  cases p with
  | header =>
    have hheader : c.dirty.header = true := hmarks
    simp only [Record.content, Update.applyTo, update, hheader, if_true, Option.getD_some]
  | property name =>
    have hname : c.dirty.properties.has name = true := hmarks
    refine congrArg Content.property ((Update.get?_patch_current _ _ _ name).trans ?_)
    rw [if_pos hname]
  | method name =>
    have hname : c.dirty.methods.has name = true := hmarks
    refine congrArg Content.method ((Update.get?_patch_current _ _ _ name).trans ?_)
    rw [if_pos hname]

/-- It leaves all other paths. -/
theorem content_update_unmarked (c : Copy) (now : Timestamp) (old : Record) {p : Path}
    (hmarks : ¬ c.dirty.Marks p) :
    ((c.update now).applyTo old).content p = old.content p := by
  cases p with
  | header =>
    have hheader : c.dirty.header = false := Bool.eq_false_iff.mpr hmarks
    simp only [Record.content, Update.applyTo, update, hheader, Bool.false_eq_true, if_false,
      Option.getD_none]
  | property name =>
    have hname : ¬ c.dirty.properties.has name = true := hmarks
    refine congrArg Content.property ((Update.get?_patch_current _ _ _ name).trans ?_)
    rw [if_neg hname]
  | method name =>
    have hname : ¬ c.dirty.methods.has name = true := hmarks
    refine congrArg Content.method ((Update.get?_patch_current _ _ _ name).trans ?_)
    rw [if_neg hname]

end Copy

end Lineage
