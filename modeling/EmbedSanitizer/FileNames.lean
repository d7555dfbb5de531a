import EmbedSanitizer.DebugInfo

namespace EmbedSanitizer
open Strings

-- The file seen from the directory: a name that is absolute stands for itself, any
-- other follows the directory, one slash and no leading "./" between them.
def absoluteFileName (dir file : Text) : Text :=
  if file.head? = some '/' then file
  else (if dir.getLast? = some '/' then dir else dir ++ ['/']) ++ (if ['.','/'] <+: file then file.drop 2 else file)

section Names
variable {dir file : Text}

theorem absoluteFileName_head (absolute : dir.head? = some '/') : (absoluteFileName dir file).head? = some '/' := by
  obtain ⟨rest,rfl⟩ := List.head?_eq_some_iff.mp absolute
  unfold absoluteFileName
  split
  · assumption
  · split <;> rfl

theorem relative_longer (relative : file.head? ≠ some '/') (plain : ¬ ['.','/'] <+: file) (directory : dir ≠ []) :
    absoluteFileName dir file ≠ file := by
  unfold absoluteFileName
  rw [if_neg relative,if_neg plain]
  intro same
  have lengths := congrArg List.length same
  have positive := List.length_pos_iff.mpr directory
  rw [List.length_append] at lengths
  split at lengths
  · omega
  · rw [List.length_append] at lengths
    omega

theorem dotSlash_iff : ['.','/'] <+: file ↔ file[0]? = some '.' ∧ file[1]? = some '/' := by
  match file with
  | [] => simp
  | [c] => simp
  | c :: d :: rest => simp [eq_comm]

theorem created_absolute (named : file ≠ []) (directory : dir ≠ []) (absolute : file.head? = some '/') :
    createAbsoluteFileName dir file = file := by
  unfold createAbsoluteFileName
  rw [if_neg (by simp [named,directory]),← List.head?_eq_getElem?,if_pos absolute]

theorem created_dotSlash (named : file ≠ []) (directory : dir ≠ []) (dotSlash : ['.','/'] <+: file) :
    createAbsoluteFileName dir file = absoluteFileName dir file := by
  obtain ⟨rest,rfl⟩ := dotSlash
  unfold createAbsoluteFileName absoluteFileName
  rw [if_neg (by simp [directory]),if_neg (by simp),if_pos (by simp),← List.getLast?_eq_getElem?]
  by_cases slash : dir.getLast? = some '/'
  · simp [slash]
  · simp [slash]

theorem created_relative (named : file ≠ []) (directory : dir ≠ []) (relative : file.head? ≠ some '/') (plain : ¬ ['.','/'] <+: file) :
    createAbsoluteFileName dir file = if dir <:+: file then file else absoluteFileName dir file := by
  unfold createAbsoluteFileName
  rw [if_neg (by simp [named,directory]),← List.head?_eq_getElem?,if_neg relative,List.head?_eq_getElem?,if_neg (mt dotSlash_iff.mpr plain),
    ← List.getLast?_eq_getElem?]
  by_cases occurs : dir <:+: file
  · rw [if_pos (by simpa [Option.isSome_iff_ne_none] using find_isSome.mpr occurs),if_pos occurs]
  · rw [if_neg (by simpa [Option.isSome_iff_ne_none] using mt find_isSome.mp occurs),if_neg occurs]
    unfold absoluteFileName
    by_cases slash : dir.getLast? = some '/'
    · simp [slash,relative,plain]
    · simp [slash,relative,plain]

theorem created_exact (rooted : dir.head? = some '/') (named : file ≠ []) : createAbsoluteFileName dir file = absoluteFileName dir file ↔
    file.head? = some '/' ∨ ['.','/'] <+: file ∨ ¬ dir <:+: file := by
  have directory : dir ≠ [] := by rintro rfl; cases rooted
  by_cases absolute : file.head? = some '/'
  · have same : absoluteFileName dir file = file := if_pos absolute
    rw [created_absolute named directory absolute]
    simp [same,absolute]
  by_cases dotSlash : ['.','/'] <+: file
  · rw [created_dotSlash named directory dotSlash]
    simp [dotSlash]
  rw [created_relative named directory absolute dotSlash]
  by_cases occurs : dir <:+: file
  · have other := Ne.symm (relative_longer absolute dotSlash directory)
    simp [occurs,other,absolute,dotSlash]
  · simp [occurs]

theorem getFileName_absolute {location : DebugLoc} (rooted : location.directory.head? = some '/') (named : location.filename ≠ [])
    (outside : ¬ location.directory <:+: location.filename) : (getFileName (some location)).head? = some '/' := by
  have same := (created_exact rooted named).mpr (.inr (.inr outside))
  exact (congrArg List.head? same).trans (absoluteFileName_head rooted)

end Names

-- The name of a file is made absolute exactly when it already is, when it begins
-- with "./", or when the directory does not occur in it.
theorem file_names_absolute {dir file : Text} (rooted : dir.head? = some '/') (named : file ≠ []) :
    (createAbsoluteFileName dir file = absoluteFileName dir file ∧ (createAbsoluteFileName dir file).head? = some '/') ↔
      file.head? = some '/' ∨ ['.','/'] <+: file ∨ ¬ dir <:+: file := by
  constructor
  · intro made
    exact (created_exact rooted named).mp made.1
  · intro recognised
    have same := (created_exact rooted named).mpr recognised
    exact ⟨same,(congrArg List.head? same).trans (absoluteFileName_head rooted)⟩

theorem file_names_absolute_header : createAbsoluteFileName "/home/src".toList "./lib/a.h".toList = "/home/src/lib/a.h".toList := by
  have dotSlash : ['.','/'] <+: "./lib/a.h".toList := by decide
  have made := (file_names_absolute (by decide : "/home/src".toList.head? = some '/') (by decide)).mpr (.inr (.inl dotSlash))
  exact made.1.trans (by decide)

-- A relative name in which the directory occurs stays relative.
theorem enclosed_directory_kept : "/lib".toList.head? = some '/' ∧ "third/lib/a.c".toList ≠ [] ∧
    createAbsoluteFileName "/lib".toList "third/lib/a.c".toList = "third/lib/a.c".toList ∧
    absoluteFileName "/lib".toList "third/lib/a.c".toList = "/lib/third/lib/a.c".toList ∧
    (createAbsoluteFileName "/lib".toList "third/lib/a.c".toList).head? ≠ some '/' := by decide

end EmbedSanitizer
