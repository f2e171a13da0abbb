import Iamroot.Lib.Run
import Iamroot.Lib.ByteOrder
import Iamroot.Lib.Tree
import Iamroot.Lib.TreeSame
import Iamroot.Lib.DepthFirst
import Iamroot.Lib.Preorder
import Iamroot.Lib.Orbit
import Iamroot.Lib.Arena
import Iamroot.Basic
import Iamroot.Path
import Iamroot.Strip
import Iamroot.Files
import Iamroot.Owner
import Iamroot.Mode
import Iamroot.Elf
import Iamroot.ElfOrder
import Iamroot.Twin
import Iamroot.Env
import Iamroot.EnvInv
import Iamroot.EnvReset
import Iamroot.Host
import Iamroot.Realpath
import Iamroot.Place
import Iamroot.Advance
import Iamroot.RealpathTurn
import Iamroot.RealpathLoop
import Iamroot.RealpathHost
import Iamroot.Sanitize
import Iamroot.Resolution
import Iamroot.Reroot
import Iamroot.ResolutionSpec
import Iamroot.InChroot
import Iamroot.Lexical
import Iamroot.Confinement
import Iamroot.Nofollow
import Iamroot.Quiet
import Iamroot.Chroot
import Iamroot.PathList
import Iamroot.Needed
import Iamroot.Xattr
import Iamroot.XattrMap
import Iamroot.ListXattr
import Iamroot.TempName
import Iamroot.UserIds
import Iamroot.ChrootRun
import Iamroot.Accessors
import Iamroot.Umask
import Iamroot.ElfStrings
import Iamroot.ElfLists
import Iamroot.LibPath
import Iamroot.UserPath
import Iamroot.Inverse
import Iamroot.Truncation
import Iamroot.Bounds
import Iamroot.Indices
import Iamroot.Termination
import Iamroot.NextRealpath
import Iamroot.Exec
import Iamroot.ExecAgree
import Iamroot.ExecVector
import Iamroot.ElfMap
import Iamroot.ElfInterp
import Iamroot.LdsoCache
import Iamroot.LdsoAccess
import Iamroot.Symlink
import Iamroot.Idempotence
import Iamroot.Spelling
import Iamroot.Preload
import Iamroot.ExecArena
import Iamroot.ArenaRoom
import Iamroot.SanitizeBuf
import Iamroot.SanitizeNormal
import Iamroot.MetaAtomic
import Iamroot.DirAtomic
import Iamroot.Hashbang
import Iamroot.PreloadSo
import Iamroot.Groups
import Iamroot.CacheBounds
import Iamroot.Sockets
import Iamroot.FdMap
import Iamroot.Scanf
import Iamroot.LdsoName
import Iamroot.Canonical
import Iamroot.Directory
import Iamroot.DirectoryRuns
import Iamroot.TempFile
import Iamroot.ExecChain
import Iamroot.ExecChains
import Iamroot.GroupFile
import Iamroot.Lib.Report
import Iamroot.Lib.ZeroByte
import Iamroot.Nftw
import Iamroot.NftwWalk
import Iamroot.Shadow
import Iamroot.Strchrnul
import Iamroot.Regcomp
import Iamroot.Regexec
import Iamroot.RegexpCompile
import Iamroot.RegexpMatch
import Iamroot.RegexpRuns
import Iamroot.DsoInit
