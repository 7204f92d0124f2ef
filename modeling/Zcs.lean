import Zcs.Log.PatternBoundary
import Zcs.Log.TimeFormat
import Zcs.Log.Inherit
import Zcs.Log.Reload
import Zcs.Threads.Lifetime
import Zcs.Threads.Handshake
import Zcs.Log.Dump
import Zcs.Log.FormatterHistory
import Zcs.Log.FileAppender
import Zcs.Log.Thresholds
import Zcs.Locks.Order
import Zcs.Locks.CasLock
import Zcs.Locks.Guards
import Zcs.Config.SetValueRace
import Zcs.Config.Listeners
import Zcs.Config.ListenerThrows
import Zcs.Config.Registry
import Zcs.Config.StringElements
import Zcs.Config.KeyCase
import Zcs.Config.NodeGraph
import Zcs.Log.Delivery
import Zcs.Log.Configured
import Zcs.Config.Nested
import Zcs.Log.DefineCast
import Zcs.Config.Reports
import Zcs.Fibers.States
import Zcs.Fibers.Schedule
import Zcs.Fibers.MainFiber
import Zcs.Fibers.NeverReach
import Zcs.Fibers.Released
import Zcs.Http.ReadLoop
import Zcs.Http.Language
import Zcs.Http.Server
import Zcs.Http.Lines
import Zcs.Config.Register
import Zcs.Config.Handles
import Zcs.Log.Writers
import Zcs.Log.Names
import Zcs.Log.Loading
import Zcs.Fibers.References
import Zcs.Fibers.Process
