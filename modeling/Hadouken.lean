import Hadouken.Library.Runs
import Hadouken.Library.AbortingLoop
import Hadouken.Library.Replay
import Hadouken.Library.Members
import Hadouken.Library.Values
import Hadouken.Library.Json
import Hadouken.Library.Separation
import Hadouken.Library.Programs
import Hadouken.Library.ValueStack
import Hadouken.Library.JsonMethods
import Hadouken.Library.Files
import Hadouken.Library.LexicalPaths
import Hadouken.Library.Admission
import Hadouken.Library.LeadingItems
import Hadouken.Library.Patterns
import Hadouken.Library.Batches
import Hadouken.Library.QueueMoves
import Hadouken.Library.MemberOrder
import Hadouken.Library.StableSort
import Hadouken.Library.Tallies
import Hadouken.Library.Searches
import Hadouken.Library.Simulation
import Hadouken.Library.CodeUnits
import Hadouken.Library.ExtendedUtf8
import Hadouken.Library.JsonTexts
import Hadouken.Library.Loops
import Hadouken.Library.Digits
import Hadouken.Library.PackedFloats
import Hadouken.Library.Numerals
import Hadouken.Library.CommandLines
import Hadouken.Library.UrlEncoding
import Hadouken.Library.NormalPaths
import Hadouken.Library.CachedLoading
import Hadouken.Library.Workers
import Hadouken.BasicCredentials
import Hadouken.RequestBody
import Hadouken.Authentication
import Hadouken.RemoteCalls
import Hadouken.Dispatch
import Hadouken.MultiCall
import Hadouken.StackBalance
import Hadouken.TorrentFiles
import Hadouken.SavedTorrents
import Hadouken.LoadTorrents
import Hadouken.SeedGoals
import Hadouken.MetadataStore
import Hadouken.SaveTorrents
import Hadouken.ResumeAccounting
import Hadouken.ShutdownWait
import Hadouken.TorrentsDirectory
import Hadouken.TorrentDurability
import Hadouken.CleanRestart
import Hadouken.HashUpdates
import Hadouken.MetadataRuns
import Hadouken.MetadataRemoval
import Hadouken.RepeatedAdds
import Hadouken.TorrentProperties
import Hadouken.PropertiesOrder
import Hadouken.PropertiesRoundTrip
import Hadouken.Perform
import Hadouken.QueueSelection
import Hadouken.Recheck
import Hadouken.Config
import Hadouken.Settings
import Hadouken.SettingsRestart
import Hadouken.ConfigFile
import Hadouken.ConfigWrites
import Hadouken.WebuiSettings
import Hadouken.SettingsReadBack
import Hadouken.SettingsWriteBack
import Hadouken.ConfigOrder
import Hadouken.SettingsOrder
import Hadouken.SettingsValidity
import Hadouken.AddTorrent
import Hadouken.SavePaths
import Hadouken.DownloadDirectories
import Hadouken.WebUi
import Hadouken.WebUiArchive
import Hadouken.Routing
import Hadouken.HeaderNames
import Hadouken.Events
import Hadouken.AutoAdd
import Hadouken.AutoAddFiles
import Hadouken.AutoAddScans
import Hadouken.Rss
import Hadouken.RssDownloads
import Hadouken.RssHistory
import Hadouken.ServiceHost
import Hadouken.TrackerListing
import Hadouken.TorrentList
import Hadouken.AutoAddPatterns
import Hadouken.AutoLabel
import Hadouken.AutoMove
import Hadouken.ConfigLens
import Hadouken.ConfigFailures
import Hadouken.MetadataCalls
import Hadouken.ParamsProperties
import Hadouken.BoundaryData
import Hadouken.AlertWrapper
import Hadouken.Launcher
import Hadouken.Pushover
import Hadouken.CompanionFiles
import Hadouken.ModuleNames
import Hadouken.ModulePaths
import Hadouken.ModuleLoading
import Hadouken.Boot
import Hadouken.HostThreads
import Hadouken.RssRestarts
import Hadouken.TorrentRestarts
import Hadouken.HttpRequests
import Hadouken.JsonDecoding
import Hadouken.JsonEncoding
import Hadouken.Dragon4
import Hadouken.NumberPrinting
import Hadouken.NumberParsing
import Hadouken.NumberRoundTrip
