import CommentTags.Proofs.Files.Eligible
import CommentTags.Proofs.Files.Resolve
import CommentTags.Proofs.Path

namespace CommentTags

/-- The text of the path that a link stands for, where `dir` is the text of its directory's path. -/
def linkText (dir target : String) : String :=
  if target.toList.head? = some '/' then target else dir ++ "/" ++ target

/-- Two texts that spell the same path, as far as the file system tells. -/
inductive Respelled (fs : FileSystem) : String → String → Prop
  | refl (s : String) : Respelled fs s s
  | symm {s s' : String} (h : Respelled fs s s') : Respelled fs s' s
  | trans {s s' s'' : String} (h : Respelled fs s s') (h' : Respelled fs s' s'') :
    Respelled fs s s''
  | leadingDot {s : String} (hs : s.toList.head? ≠ some '/') : Respelled fs s ("./" ++ s)
  | dot (a b : String) : Respelled fs (a ++ "/" ++ b) (a ++ "/./" ++ b)
  | doubledSlash (a b : String) : Respelled fs (a ++ "/" ++ b) (a ++ "//" ++ b)
  | trailingSlash {a : String} (ha : a ≠ "") : Respelled fs a (a ++ "/")
  | absolute {s : String} (hs : s.toList.head? ≠ some '/') :
    Respelled fs s ((Path.mk .root fs.here).toString ++ "/" ++ s)
  | back {a x : String} (hx : IsName x) (hdir : fs.isPlainDir (.ofString (a ++ "/" ++ x)) = true)
    (b : String) : Respelled fs (a ++ "/" ++ b) (a ++ "/" ++ x ++ "/../" ++ b)
  /-- A link has to lead somewhere, since one that leads back to itself denotes nothing. -/
  | link {a x target : String} {loc : Location} (hx : IsName x)
    (hlink : fs.nodeItself? (.ofString (a ++ "/" ++ x)) = some (.link target))
    (hloc : fs.Denotes false (.ofString (a ++ "/" ++ x)) loc) (b : String) :
    Respelled fs (a ++ "/" ++ x ++ "/" ++ b) (linkText a target ++ "/" ++ b)

variable {fs : FileSystem} {strict : Bool} {p q : Path} {loc : Location} {a b c s s' x : String}

namespace Path

theorem toList_slash (a b : String) : (a ++ "/" ++ b).toList = a.toList ++ '/' :: b.toList := by
  rw [String.toList_append, String.toList_append, List.append_assoc]
  rfl

theorem names_ofString_slash (a b : String) :
    (ofString (a ++ "/" ++ b)).names = (ofString a).names ++ (ofString b).names := by
  rw [ofString, toList_slash]
  exact namesOf_append_slash a.toList b.toList

theorem names_ofString_leadingSlash (s : String) :
    (ofString ("/" ++ s)).names = (ofString s).names :=
  names_ofString_slash "" s

theorem names_ofString_leadingDot (s : String) :
    (ofString ("./" ++ s)).names = (ofString s).names :=
  names_ofString_slash "." s

theorem names_ofString_of_isName (hx : IsName x) : (ofString x).names = [x] := by
  have hcomponent : ∀ name ∈ [x], IsComponent name ∧ name ≠ "." :=
    List.forall_mem_singleton.mpr ⟨hx.toIsComponent, hx.ne_dot⟩
  have h := namesOf_joined hcomponent
  rwa [joined, List.map_singleton, List.intercalate_singleton] at h

theorem ofString_slash_of_isName (a : String) (hx : IsName x) :
    ofString (a ++ "/" ++ x) = child ⟨(ofString (a ++ "/" ++ x)).anchor, (ofString a).names⟩ x := by
  rw [child, ← names_ofString_of_isName hx, ← names_ofString_slash]

end Path

namespace FileSystem

theorem start_ofString_slash (a b c : String) :
    fs.start (.ofString (a ++ "/" ++ b)) = fs.start (.ofString (a ++ "/" ++ c)) := by
  have hhead : (a ++ "/" ++ b).toList.head? = (a ++ "/" ++ c).toList.head? := by
    rw [Path.toList_slash, Path.toList_slash]
    cases a.toList <;> rfl
  rw [start_ofString, start_ofString, linkStart, linkStart, hhead]

theorem start_ofString_slash_of_ne (hs : s ≠ "") (b : String) :
    fs.start (.ofString (s ++ "/" ++ b)) = fs.start (.ofString s) := by
  have hhead : (s ++ "/" ++ b).toList.head? = s.toList.head? := by
    rw [Path.toList_slash]
    cases hlist : s.toList with
    | nil => exact absurd (String.toList_injective hlist) hs
    | cons c rest => rfl
  rw [start_ofString, start_ofString, linkStart, linkStart, hhead]

theorem start_ofString_of_relative (hs : s.toList.head? ≠ some '/') :
    fs.start (.ofString s) = fs.here := by
  rw [start_ofString, linkStart, if_neg hs]

theorem start_ofString_of_absolute (hs : s.toList.head? = some '/') :
    fs.start (.ofString s) = [] := by
  rw [start_ofString, linkStart, if_pos hs]

theorem resolution_eq_of_names (hstart : fs.start p = fs.start q) (hnames : p.names = q.names) :
    fs.resolution strict p = fs.resolution strict q := by
  rw [resolution, resolution, hstart, hnames]

end FileSystem

namespace Respelled

open FileSystem CommentTags.Path

theorem resolution_leadingDot (hs : s.toList.head? ≠ some '/') :
    fs.resolution strict (.ofString s) = fs.resolution strict (.ofString ("./" ++ s)) := by
  refine resolution_eq_of_names ?_ (names_ofString_leadingDot s).symm
  rw [start_ofString_of_relative hs, start_ofString_of_relative]
  rw [String.toList_append]
  exact fun h => by cases h

theorem resolution_dot (a b : String) :
    fs.resolution strict (.ofString (a ++ "/" ++ b)) =
      fs.resolution strict (.ofString (a ++ "/./" ++ b)) := by
  have htext : a ++ "/./" ++ b = a ++ "/" ++ ("./" ++ b) :=
    String.toList_injective (by simp [String.toList_append])
  rw [htext]
  refine resolution_eq_of_names (start_ofString_slash a b _) ?_
  rw [names_ofString_slash, names_ofString_slash, names_ofString_leadingDot]

theorem resolution_doubledSlash (a b : String) :
    fs.resolution strict (.ofString (a ++ "/" ++ b)) =
      fs.resolution strict (.ofString (a ++ "//" ++ b)) := by
  have htext : a ++ "//" ++ b = a ++ "/" ++ ("/" ++ b) :=
    String.toList_injective (by simp [String.toList_append])
  rw [htext]
  refine resolution_eq_of_names (start_ofString_slash a b _) ?_
  rw [names_ofString_slash, names_ofString_slash, names_ofString_leadingSlash]

theorem resolution_trailingSlash (hs : s ≠ "") :
    fs.resolution strict (.ofString s) = fs.resolution strict (.ofString (s ++ "/")) := by
  have htext : s ++ "/" = s ++ "/" ++ "" := String.append_empty.symm
  rw [htext]
  refine resolution_eq_of_names (start_ofString_slash_of_ne hs "").symm ?_
  rw [names_ofString_slash]
  exact (List.append_nil _).symm

theorem resolution_absolute (hfs : fs.root.WellFormed) (hhere : fs.HasHere)
    (hs : s.toList.head? ≠ some '/') :
    fs.resolution strict (.ofString s) =
      fs.resolution strict (.ofString ((Path.mk .root fs.here).toString ++ "/" ++ s)) := by
  obtain ⟨entries, info, hget⟩ := hhere
  have hnormal := normal_of_isName .root fun name hname =>
    (hfs.isEntryName_of_reach? hget name hname).toIsName
  have hclear := IsClear.of_reach? hfs hget rfl
  have hleads : fs.Leads strict 0 [] fs.here fs.here :=
    hclear.leads fun _ => Option.ne_none_iff_exists'.mpr ⟨_, hget⟩
  have hnames : (ofString ((Path.mk .root fs.here).toString ++ "/" ++ s)).names =
      fs.here ++ (ofString s).names := by
    rw [names_ofString_slash, ofString_toString hnormal]
  have hstart : fs.start (.ofString ((Path.mk .root fs.here).toString ++ "/" ++ s)) = [] := by
    apply start_ofString_of_absolute
    rw [toList_slash, toList_toString fun h => by cases h.1]
    have hroot : (anchorText .root).toList = ['/'] := rfl
    rw [hroot]
    rfl
  have hnothing : fs.Leads strict 0 (fs.start (.ofString s)) [] fs.here := by
    rw [start_ofString_of_relative hs]
    exact .nil
  rw [← hstart] at hleads
  exact resolution_congr (List.nil_append _).symm hnames hnothing hleads

theorem resolution_back (hfs : fs.root.WellFormed) (hx : IsName x)
    (hdir : fs.isPlainDir (.ofString (a ++ "/" ++ x)) = true) (b : String) :
    fs.resolution strict (.ofString (a ++ "/" ++ b)) =
      fs.resolution strict (.ofString (a ++ "/" ++ x ++ "/../" ++ b)) := by
  have htext : a ++ "/" ++ x ++ "/../" ++ b = a ++ "/" ++ (x ++ "/" ++ (".." ++ "/" ++ b)) :=
    String.toList_injective (by simp [String.toList_append])
  have hnames : (ofString (a ++ "/" ++ (x ++ "/" ++ (".." ++ "/" ++ b)))).names =
      ((ofString a).names ++ [x, ".."]) ++ (ofString b).names := by
    rw [names_ofString_slash, names_ofString_slash, names_ofString_slash,
      names_ofString_of_isName hx, List.append_assoc]
    rfl
  rw [isPlainDir, Bool.and_eq_true, Bool.not_eq_true', ofString_slash_of_isName a hx] at hdir
  obtain ⟨n, dir, hleads, hnul, hget, hlink⟩ := leads_of_not_isLink hfs strict hx.ne_dot
    hx.ne_dotdot (pathExists_of_isDir hdir.1) hdir.2
  have hback : fs.Leads strict 0 dir [x, ".."] dir := by
    refine .entry hx.ne_dot hx.ne_dotdot hnul hlink (fun _ => hget) (.dotdot ?_)
    rw [List.dropLast_concat]
    exact .nil
  have hbefore :
      fs.Leads strict n (fs.start (.ofString (a ++ "/" ++ b))) (ofString a).names dir := by
    rw [start_ofString_slash a b x]
    exact hleads
  have hthrough : fs.Leads strict (n + 0)
      (fs.start (.ofString (a ++ "/" ++ (x ++ "/" ++ (".." ++ "/" ++ b)))))
      ((ofString a).names ++ [x, ".."]) dir := by
    rw [start_ofString_slash a _ x]
    exact hleads.append hback
  rw [htext]
  exact resolution_congr (names_ofString_slash a b) hnames hbefore hthrough

theorem resolution_slash (hs : s ≠ "") (hs' : s' ≠ "") (h : fs.Denotes strict (.ofString s) loc)
    (h' : fs.Denotes strict (.ofString s') loc) (b : String) :
    fs.resolution strict (.ofString (s ++ "/" ++ b)) =
      fs.resolution strict (.ofString (s' ++ "/" ++ b)) := by
  obtain ⟨n, hleads⟩ := h
  obtain ⟨n', hleads'⟩ := h'
  rw [← start_ofString_slash_of_ne hs b] at hleads
  rw [← start_ofString_slash_of_ne hs' b] at hleads'
  exact resolution_congr (names_ofString_slash s b) (names_ofString_slash s' b) hleads hleads'

theorem slash_ne_empty (a b : String) : a ++ "/" ++ b ≠ "" := fun h =>
  List.append_ne_nil_of_right_ne_nil _ (List.cons_ne_nil _ _)
    ((toList_slash a b).symm.trans (congrArg String.toList h))

theorem linkText_ne_empty (a target : String) : linkText a target ≠ "" := by
  unfold linkText
  split
  · rintro rfl
    rename_i h
    cases h
  · exact slash_ne_empty a target

theorem denotes_linkText {target : String} (hfs : fs.root.WellFormed) (hx : IsName x)
    (hlink : fs.nodeItself? (.ofString (a ++ "/" ++ x)) = some (.link target))
    (hloc : fs.Denotes strict (.ofString (a ++ "/" ++ x)) loc) :
    fs.Denotes strict (.ofString (linkText a target)) loc := by
  rw [ofString_slash_of_isName a hx] at hlink hloc
  have htarget := (denotes_link_iff hfs hx.ne_dot hx.ne_dotdot hlink).mp hloc
  unfold linkTarget at htarget
  unfold linkText
  split at htarget
  · rename_i habsolute
    rwa [if_pos habsolute]
  · rename_i hrelative
    rw [if_neg hrelative, Denotes, start_ofString_slash a target x, names_ofString_slash]
    exact htarget

theorem resolution_link {target : String} (hfs : fs.root.WellFormed) (hx : IsName x)
    (hlink : fs.nodeItself? (.ofString (a ++ "/" ++ x)) = some (.link target))
    (hloc : fs.Denotes strict (.ofString (a ++ "/" ++ x)) loc) (b : String) :
    fs.resolution strict (.ofString (a ++ "/" ++ x ++ "/" ++ b)) =
      fs.resolution strict (.ofString (linkText a target ++ "/" ++ b)) :=
  resolution_slash (slash_ne_empty a x) (linkText_ne_empty a target) hloc
    (denotes_linkText hfs hx hlink hloc) b

end Respelled

theorem Respelled.resolution_eq (hfs : fs.root.WellFormed) (hhere : fs.HasHere)
    (h : Respelled fs s s') :
    fs.resolution false (.ofString s) = fs.resolution false (.ofString s') := by
  induction h with
  | refl => rfl
  | symm _ ih => exact ih.symm
  | trans _ _ ih ih' => exact ih.trans ih'
  | leadingDot hs => exact resolution_leadingDot hs
  | dot a b => exact resolution_dot a b
  | doubledSlash a b => exact resolution_doubledSlash a b
  | trailingSlash ha => exact resolution_trailingSlash ha
  | absolute hs => exact resolution_absolute hfs hhere hs
  | back hx hdir b => exact resolution_back hfs hx hdir b
  | link hx hlink hloc b => exact resolution_link hfs hx hlink hloc b

end CommentTags
