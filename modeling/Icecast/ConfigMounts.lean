import Icecast.Lib.Bytes

namespace Icecast.ConfigMounts
open Bytes

-- ice_config_http_header_t; the only type there is is HTTP_HEADER_TYPE_STATIC.
structure HttpHeader where
  name : Option Text
  value : Option Text
  status : Int
deriving DecidableEq

inductive MountType where
  | normal
  | default_
deriving DecidableEq

-- mount_proxy
structure MountProxy where
  mountname : Option Text
  mounttype : MountType
  fallbackMount : Option Text
  httpHeaders : List HttpHeader
  streamName : Option Text
deriving DecidableEq

section Find

-- fnmatch (pattern, string, FNM_PATHNAME) == 0
variable (fnmatch : Text → Text → Bool)

-- Whether the loop of config_find_mount stops at an entry of its type.
def stopsAt (type : MountType) (mount : Option Text) (mountinfo : MountProxy) : Bool :=
  match mount,mountinfo.mountname with
  | some mount,some name => (type == .normal && name == mount) || fnmatch name mount
  | _,_ => true

def scanMounts (type : MountType) (mount : Option Text) : List MountProxy → Option MountProxy
  | [] => none
  | mountinfo::mounts =>
    if mountinfo.mounttype = type ∧ stopsAt fnmatch type mount mountinfo then some mountinfo
    else scanMounts type mount mounts

-- Without an entry of its own a mount has the default one.
def configFindMount (mounts : List MountProxy) (mount : Option Text) (type : MountType) : Option MountProxy :=
  match scanMounts fnmatch type mount mounts with
  | some mountinfo => some mountinfo
  | none => if type = .normal then scanMounts fnmatch .default_ mount mounts else none

theorem scanMounts_mem (found : scanMounts fnmatch type mount mounts = some mountinfo) : mountinfo ∈ mounts := by
  induction mounts with
  | nil => cases found
  | cons first mounts ih =>
    unfold scanMounts at found
    split at found
    · cases found
      exact List.mem_cons_self
    · exact List.mem_cons_of_mem _ (ih found)

theorem configFindMount_mem (found : configFindMount fnmatch mounts mount type = some mountinfo) :
    mountinfo ∈ mounts := by
  unfold configFindMount at found
  split at found
  · rename_i own
    cases found
    exact scanMounts_mem fnmatch own
  · split at found
    · exact scanMounts_mem fnmatch found
    · cases found

end Find

end Icecast.ConfigMounts
