import Aperture.Cache
import Aperture.Table.Basic

namespace Aperture

inductive Event where
  | table (call : TableCall)
  | cache (call : CacheCall)
  | notice (n : Notice)

namespace Event

def tableCalls (es : List Event) : List TableCall :=
  es.filterMap fun
    | table call => some call
    | _ => none

def cacheCalls (es : List Event) : List CacheCall :=
  es.filterMap fun
    | cache call => some call
    | _ => none

/-- The notices of some events; a table adds its complaints about the calls made on it. -/
def notices (t : Option Table) (es : List Event) : List Notice :=
  es.filterMap fun
    | table call => t.bind (·.complaint? call)
    | notice n => some n
    | cache _ => none

@[simp] theorem tableCalls_nil : tableCalls [] = [] := rfl

@[simp] theorem tableCalls_append (es fs : List Event) :
    tableCalls (es ++ fs) = tableCalls es ++ tableCalls fs := List.filterMap_append

@[simp] theorem tableCalls_map_table (calls : List TableCall) :
    tableCalls (calls.map table) = calls := by
  rw [tableCalls, List.filterMap_map]
  exact List.filterMap_some

@[simp] theorem tableCalls_map_notice (notices : List Notice) :
    tableCalls (notices.map notice) = [] := by
  rw [tableCalls, List.filterMap_map]
  exact List.filterMap_eq_nil_iff.mpr fun _ _ => rfl

@[simp] theorem tableCalls_map_cache (calls : List CacheCall) :
    tableCalls (calls.map cache) = [] := by
  rw [tableCalls, List.filterMap_map]
  exact List.filterMap_eq_nil_iff.mpr fun _ _ => rfl

@[simp] theorem cacheCalls_append (es fs : List Event) :
    cacheCalls (es ++ fs) = cacheCalls es ++ cacheCalls fs := List.filterMap_append

@[simp] theorem cacheCalls_map_cache (calls : List CacheCall) :
    cacheCalls (calls.map cache) = calls := by
  rw [cacheCalls, List.filterMap_map]
  exact List.filterMap_some

@[simp] theorem cacheCalls_map_notice (notices : List Notice) :
    cacheCalls (notices.map notice) = [] := by
  rw [cacheCalls, List.filterMap_map]
  exact List.filterMap_eq_nil_iff.mpr fun _ _ => rfl

@[simp] theorem tableCalls_cons_notice (n : Notice) (es : List Event) :
    tableCalls (notice n :: es) = tableCalls es := rfl

end Event

end Aperture
